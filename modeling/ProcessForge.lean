import ProcessForge.Main
import ProcessForge.Proofs.Bonita.ActorMappings
import ProcessForge.Proofs.Bonita.Connectors
import ProcessForge.Proofs.Bonita.DescriptorFiles
import ProcessForge.Proofs.Bonita.Fragments
import ProcessForge.Proofs.Bonita.Frame
import ProcessForge.Proofs.Bonita.Lanes
import ProcessForge.Proofs.Bonita.Templates
import ProcessForge.Proofs.Bonita.Timers
import ProcessForge.Proofs.Camunda.Preservation
import ProcessForge.Proofs.Camunda.ServiceTasks
import ProcessForge.Proofs.ClassModel.Rendering
import ProcessForge.Proofs.ClassModel.Unclosed
import ProcessForge.Proofs.ContractOperations
import ProcessForge.Proofs.Decision.Declarations
import ProcessForge.Proofs.Decision.QuotedEntries
import ProcessForge.Proofs.Decision.TableColumns
import ProcessForge.Proofs.Enrichment.DecidingSetting
import ProcessForge.Proofs.Escapes
import ProcessForge.Proofs.Export
import ProcessForge.Proofs.Expression.Braces
import ProcessForge.Proofs.Expression.Descriptors
import ProcessForge.Proofs.FieldTypes
import ProcessForge.Proofs.Json.Substitution
import ProcessForge.Proofs.Nesting
import ProcessForge.Proofs.Organization.Memberships
import ProcessForge.Proofs.Process.Completeness
import ProcessForge.Proofs.Process.Labels
import ProcessForge.Proofs.Xml.Serialization
