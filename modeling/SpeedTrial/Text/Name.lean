/-!
# Comparing names without regard to case

The names of profiles, modes and streams are ASCII words and may be written in any case.
Two characters outside ASCII have a lower case form with an ASCII letter in it, so they
matter as well: KELVIN SIGN becomes `k`, and capital I with dot above becomes `i` and a
combining dot.  Any other character is kept: its lower case form has no ASCII letter, so no
comparison with an ASCII word can tell the two apart.
-/

namespace SpeedTrial.Text

/-- The lower case form of a character, as far as ASCII letters take part in it. -/
def lowerCase (c : Char) : List Char :=
  if c = Char.ofNat 0x212A then ['k']
  else if c = Char.ofNat 0x130 then ['i', Char.ofNat 0x307]
  else [c.toLower]

/-- The lower case form of a text, as far as ASCII letters take part in it. -/
def lowered (s : String) : String := String.ofList (s.toList.flatMap lowerCase)

end SpeedTrial.Text
