import Propositions.Syntax
import Propositions.Parser
import Propositions.Polish
import Propositions.ParseErrors
import Propositions.Semantics
import Propositions.Models
import Propositions.Classify
import Propositions.Synthesis
import Propositions.Substitution
import Propositions.Occurrences
import Propositions.Commutation
import Propositions.Invariance
import Propositions.TruthTables
