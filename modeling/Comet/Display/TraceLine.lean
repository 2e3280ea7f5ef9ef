import Comet.Text.Column
import Comet.Text.Style
import Comet.Machine.Trace

/-!
# Trace lines

Every executed instruction is shown on a line of its own: where it stood, its words, its name, what
it did and the flags it left.
-/

namespace Comet

def TraceEntry.text (e : TraceEntry) : String :=
  e.address.hex ++ ": " ++ e.word.hex ++ " " ++ (e.operand.map Word.hex).getD (Text.spaces 4) ++
    "  " ++ Text.padRight 5 e.opcode.name ++ " " ++ e.effect.text ++ "  " ++ e.flags.text

def TraceEntry.printed (look : Text.Appearance) (e : TraceEntry) : String :=
  look.paint .blue e.text ++ "\n"

end Comet
