/-!
# Quoted text

Error messages show foreign text between double quotes, with the quote, the backslash and the
control characters escaped. Only ASCII text is quoted this way: array headers and the words of a
style program are ASCII by the time they reach a message.
-/
namespace RasterTile.Text

def escape? (c : Char) : Option (List Char) :=
  match c with
  | '"' => some ['\\', '"']
  | '\\' => some ['\\', '\\']
  | '\n' => some ['\\', 'n']
  | '\r' => some ['\\', 'r']
  | '\t' => some ['\\', 't']
  | '\x00' => some ['\\', '0']
  | c =>
    if c.toNat < 0x20 ∨ c.toNat = 0x7f then
      some (['\\', 'u', '\x7b'] ++ Nat.toDigits 16 c.toNat ++ ['\x7d'])
    else none

def quoted (cs : List Char) : String :=
  String.ofList ('"' :: (cs.flatMap (fun c => (escape? c).getD [c]) ++ ['"']))

/-- The items in brackets, separated by a comma and a space. -/
def bracketed (items : List String) : String := "[" ++ ", ".intercalate items ++ "]"

end RasterTile.Text
