import PhpDoc.Main
import PhpDoc.Proofs.Groups
import PhpDoc.Proofs.Reading
import PhpDoc.Proofs.Columns
import PhpDoc.Proofs.Regrouping
import PhpDoc.Proofs.Reconciliation
import PhpDoc.Proofs.Survival
import PhpDoc.Proofs.Above
import PhpDoc.Proofs.Anchors
import PhpDoc.Proofs.Files
import PhpDoc.Proofs.Idempotence
import PhpDoc.Proofs.SingleComment
import PhpDoc.Proofs.PropertyLines
import PhpDoc.Proofs.Rerendering
import PhpDoc.Proofs.WrittenComments
import PhpDoc.Proofs.SchemaView
import PhpDoc.Proofs.ClassFiles
import PhpDoc.Proofs.Atomicity
import PhpDoc.Proofs.DryRun
import PhpDoc.Proofs.Undocumented
import PhpDoc.Proofs.Comments
import PhpDoc.Proofs.CacheHistory
import PhpDoc.Proofs.Places
import PhpDoc.Proofs.ConvertedReaders
import PhpDoc.Proofs.ConvertedClass
import PhpDoc.Proofs.ConvertedMerge
import PhpDoc.Proofs.DiscoveredNames
import PhpDoc.Proofs.Layout
import PhpDoc.Proofs.NameResolution
import PhpDoc.Proofs.Balance
import PhpDoc.Proofs.ParameterLists
import PhpDoc.Proofs.MethodLines
import PhpDoc.Proofs.RequiredMixins
import PhpDoc.Proofs.JsonText
import PhpDoc.Proofs.Slices
import PhpDoc.Proofs.SettingsText
import PhpDoc.Proofs.Nesting
import PhpDoc.Proofs.GroupClauses
import PhpDoc.Proofs.TypeExpressions
import PhpDoc.Proofs.Descent
import PhpDoc.Proofs.Discovery
