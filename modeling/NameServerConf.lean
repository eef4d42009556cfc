import NameServerConf.Node.Outline
import NameServerConf.Console
import NameServerConf.Main
import NameServerConf.Proofs.Reload
import NameServerConf.Proofs.Values
import NameServerConf.Proofs.Lists
import NameServerConf.Proofs.Fields
import NameServerConf.Proofs.Runs
import NameServerConf.Proofs.Clauses
import NameServerConf.Proofs.MatchLists
import NameServerConf.Proofs.Channels
import NameServerConf.Proofs.Blocks
import NameServerConf.Proofs.Entities
import NameServerConf.Proofs.RoundTrip
import NameServerConf.Proofs.Tree
import NameServerConf.Proofs.Tidying
import NameServerConf.Proofs.Pieces
import NameServerConf.Proofs.Layout
import NameServerConf.Proofs.Agreement
import NameServerConf.Proofs.Blindness
import NameServerConf.Proofs.Finished
import NameServerConf.Proofs.KeptStatements
import NameServerConf.Proofs.Splitting
import NameServerConf.Proofs.BuiltStatements
import NameServerConf.Proofs.Spelling
import NameServerConf.Proofs.Checks
import NameServerConf.Proofs.Normalizing
import NameServerConf.Proofs.Editing
import NameServerConf.Proofs.Effects
import NameServerConf.Proofs.Collected
import NameServerConf.Proofs.UnknownStatements
import NameServerConf.Proofs.Registry
import NameServerConf.Proofs.Reports
import NameServerConf.Proofs.LeadingClauses
import NameServerConf.Proofs.Headers
import NameServerConf.Proofs.Names
import NameServerConf.Proofs.Concatenation
import NameServerConf.Proofs.BodyLists
import NameServerConf.Proofs.SettingsFiles
import NameServerConf.Proofs.Assignments
import NameServerConf.Proofs.Spacing
import NameServerConf.Proofs.Tokens
import NameServerConf.Proofs.Nesting
import NameServerConf.Proofs.SettingTables
import NameServerConf.Proofs.Declarations
