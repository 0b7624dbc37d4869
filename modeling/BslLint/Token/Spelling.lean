import BslLint.Token.Kind

/-!
# Reserved words in a text

A reserved word may be written in Russian or in English and in any mixture of cases. Two letters
are the same if they differ in case alone, and besides the two usual forms of a letter this takes
in the Kelvin sign for `k`, the long s for `s`, and the old Cyrillic letter shapes of Unicode 9 for
the letters whose variants they are. None of these may stand in an identifier.

`Keyword.longest?` finds the longest reserved word at the front of a text. Whether that word is a
token is not decided here: a longer identifier may begin at the same place.
-/

namespace BslLint

namespace Keyword

/-- The small form of a letter that can occur in a reserved word. -/
def foldCase (c : Char) : Char :=
  if ('A' ≤ c && c ≤ 'Z') || ('А' ≤ c && c ≤ 'Я') then Char.ofNat (c.toNat + 32)
  else match c with
    | 'Ё' => 'ё'
    | '\u212A' => 'k'
    | 'ſ' => 's'
    | '\u1C80' => 'в'
    | '\u1C81' => 'д'
    | '\u1C82' => 'о'
    | '\u1C83' => 'с'
    | '\u1C84' | '\u1C85' => 'т'
    | '\u1C86' => 'ъ'
    | c => c

/-- Every spelling in small letters with the word that it spells. -/
def spellings : List (List Char × Keyword) :=
  all.map (fun word ↦ (word.display.toList.map foldCase, word)) ++
    all.map (fun word ↦ (word.english.toList.map foldCase, word))

/-- Whether a text begins with a spelling, whatever the case of its letters. -/
def begins : List Char → List Char → Bool
  | [], _ => true
  | _ :: _, [] => false
  | s :: spelling, c :: text => s == foldCase c && begins spelling text

/-- The longer of two finds; the first of them if they are equally long. -/
def longer (first second : Option (Keyword × Nat)) : Option (Keyword × Nat) :=
  match first, second with
  | none, found => found
  | found, none => found
  | some (v, m), some (w, n) => if m < n then some (w, n) else some (v, m)

/-- The longest reserved word at the front of a text and its length in characters. -/
def longest? (text : List Char) : Option (Keyword × Nat) :=
  spellings.foldl (fun found (spelling, word) ↦
    if begins spelling text then longer found (some (word, spelling.length)) else found) none

end Keyword

end BslLint
