import CronWrap.Command.Arguments
import CronWrap.Command.Run
import CronWrap.Conversion.File
import CronWrap.Files.Session
import CronWrap.Main
import CronWrap.Proofs.Alias.Outcome
import CronWrap.Proofs.Conversion.Agreement
import CronWrap.Proofs.Conversion.EditOrder
import CronWrap.Proofs.Conversion.InPlace
import CronWrap.Proofs.Conversion.Rewriting
import CronWrap.Proofs.Conversion.Twice
import CronWrap.Proofs.Module.CallOrder
import CronWrap.Proofs.Json.Lenient
import CronWrap.Proofs.Module.Prefilter
import CronWrap.Proofs.Wrapper.Collision
import CronWrap.Proofs.Wrapper.Frame
import CronWrap.Proofs.Wrapper.ImportReaches
import CronWrap.Proofs.Wrapper.ManifestFound
import CronWrap.Proofs.Wrapper.Project
import CronWrap.Proofs.Path.Climb
import CronWrap.Proofs.CallSite.FirstNamed
import CronWrap.Proofs.Wrapper.PlanOrder
import CronWrap.Proofs.Alias.ReadBack
import CronWrap.Proofs.Script.Scopes
import CronWrap.Proofs.Wrapper.Hygiene
import CronWrap.Proofs.Wrapper.ExportName
import CronWrap.Proofs.Conversion.Bindings
import CronWrap.Proofs.Conversion.BlockEnd
import CronWrap.Proofs.Discovery.Exact
import CronWrap.Proofs.Discovery.Narrowing
import CronWrap.Proofs.Json.Verbatim
import CronWrap.Proofs.CallSite.Scanned
import CronWrap.Proofs.Settings.Loaded
import CronWrap.Proofs.Wrapper.Template
