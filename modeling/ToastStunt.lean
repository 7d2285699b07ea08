import ToastStunt.Library.Failing
import ToastStunt.Db.Builtins
import ToastStunt.Db.Naming
import ToastStunt.Db.SlotRuns
import ToastStunt.Db.CacheRuns
import ToastStunt.Db.Create
import ToastStunt.Gc.Soundness
import ToastStunt.Maps.Invariant
import ToastStunt.Maps.Finite
import ToastStunt.Json.RoundTrip
import ToastStunt.Json.Totality
import ToastStunt.Dbio.RoundTrip
import ToastStunt.Tasks.InputRuns
import ToastStunt.Tasks.BackgroundRuns
import ToastStunt.Tasks.BuiltinResumption
import ToastStunt.Tasks.TaskReload
import ToastStunt.Dbio.AfterLoad
import ToastStunt.Gc.RootBuffer
import ToastStunt.Db.Duplicates
import ToastStunt.Db.Recycling
import ToastStunt.Db.VerbNames
import ToastStunt.Db.LookupRuns
import ToastStunt.Numbers.Powers
import ToastStunt.Execute.Ranges
import ToastStunt.Execute.MapRanges
import ToastStunt.Execute.ScatterRuns
import ToastStunt.Execute.ForLoopRuns
import ToastStunt.Binary.Base64
import ToastStunt.Waifs.LooplessRuns
import ToastStunt.Waifs.Views
import ToastStunt.Strings.Translation
import ToastStunt.Files.Reading
import ToastStunt.Commands.Parsing
import ToastStunt.Network.PulledInput
import ToastStunt.Pcre.Successive
import ToastStunt.Network.OutputRuns
import ToastStunt.Values.Congruence
import ToastStunt.Sharing.Mapdelete
import ToastStunt.Db.Kinship
import ToastStunt.Db.Whereabouts
import ToastStunt.Code.Lossless
