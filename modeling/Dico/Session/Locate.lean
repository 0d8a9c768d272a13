import Dico.Common.CInt
import Dico.Session.Commands
import Dico.Text.Cstr
/-!
# Finding a command

`locate_command` of `dicod/commands.c`, down to the comparison of bytes in
memory: `_cmd_arg_cmp` holds the words of the client against the keyword,
one word after another, with an offset into the keyword, and reads beyond
neither. What it accepts is a keyword that is the first words of the line
with single spaces between them, whatever the words are. But the lengths
and the offset are `int`s: a word of 2³¹ bytes or more loses bytes.
-/

namespace Dico

/-! ## The model -/

section Words

variable {keyword arg rest : Bytes} {args : List Bytes} {c : UInt8}

end Words

section Memory

variable {pre keyword arg u v : Bytes} {args argv : List Bytes} {off : ℤ}

end Memory

section Locate

variable {commandList : Option (List Command)} {argv : List Bytes}

end Locate

end Dico
