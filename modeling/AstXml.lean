import AstXml.Main
import AstXml.Proofs.Accesses
import AstXml.Proofs.Builder.Members
import AstXml.Proofs.Chains
import AstXml.Proofs.Cli.Run
import AstXml.Proofs.Counters
import AstXml.Proofs.Document.Spellings
import AstXml.Proofs.FirstMention
import AstXml.Proofs.Layout
import AstXml.Proofs.Lookup
import AstXml.Proofs.QualifierModes
import AstXml.Proofs.Redeclarations
import AstXml.Proofs.Registry.Lossless
import AstXml.Proofs.Scopes
import AstXml.Proofs.Sources
import AstXml.Proofs.StartLists
import AstXml.Proofs.StartSet
import AstXml.Proofs.Summaries
import AstXml.Proofs.TableOrder
import AstXml.Proofs.Termination
import AstXml.Proofs.Violations
import AstXml.Registry.Operation
