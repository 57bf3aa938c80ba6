import SemanticGrammar.Proofs.ChartMemory
import SemanticGrammar.Proofs.EngineCalls
import SemanticGrammar.Proofs.Equation.CategoryTokens
import SemanticGrammar.Proofs.Equation.Chains
import SemanticGrammar.Proofs.Equation.Grounding
import SemanticGrammar.Proofs.Equation.IdentifierTokens
import SemanticGrammar.Proofs.Interning
import SemanticGrammar.Proofs.LengthPruning
import SemanticGrammar.Proofs.Tokenizer.LongestMatch
import SemanticGrammar.Proofs.Tokenizer.Refusal
import SemanticGrammar.Proofs.Tokenizer.Segmentation
