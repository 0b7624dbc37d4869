import BslLint.Token.Spelling
import BslLint.Token.Lexeme
import Mathlib.Data.List.Basic

/-!
# Reserved words at the front of a text

Reserved words are looked for among all spellings at once, and the longest wins. No proof looks at
which of them that is: the find depends on **the set of spellings that the text begins with**
(`longest?_congr`), so it is the same in two texts that begin with the same ones. It reaches at
least as far as each of them, and it is one of them.
-/

namespace BslLint

namespace Keyword

/-- The spellings with their letters read out of the strings. A closed text is cut by evaluation,
and there the kernel would read every letter of every word out of its bytes again. -/
def written : { table : List (List Char × Keyword) // spellings = table } :=
  ⟨_, by
    simp only [spellings, display, all, List.map_cons, String.reduceToList, foldCase,
      ↓Char.isValue, Char.reduceLE, decide_true, decide_false, Bool.and_false, Bool.and_self,
      Bool.or_true, ↓reduceIte, Char.reduceToNat, Nat.reduceAdd, Bool.or_self, Bool.false_eq_true,
      Char.reduceEq, imp_self, List.map_nil, Bool.and_true, Bool.or_false, english, Std.le_refl,
      List.cons_append, List.nil_append]
    rfl⟩

/-- A spelling is made of letters, and there is at least one of them. -/
theorem letters_of_mem_spelling :
    ∀ p ∈ spellings, p.1 ≠ [] ∧ ∀ c ∈ p.1, isLetter c = true := by
  have hall : written.1.all (fun p ↦ !p.1.isEmpty && p.1.all isLetter) = true := by decide +kernel
  rw [written.2]
  simpa only [List.all_eq_true, Bool.and_eq_true, Bool.not_eq_true', List.isEmpty_eq_false_iff]
    using hall

/-- All of them are letters, -/
theorem isLetter_of_mem_spelling : ∀ p ∈ spellings, ∀ c ∈ p.1, isLetter c = true :=
  fun p hp ↦ (letters_of_mem_spelling p hp).2

/-- and there are some. -/
theorem spelling_ne_nil : ∀ p ∈ spellings, p.1 ≠ [] :=
  fun p hp ↦ (letters_of_mem_spelling p hp).1

/-- The find after one spelling more was looked for. -/
def look (text : List Char) (found : Option (Keyword × Nat)) (p : List Char × Keyword) :
    Option (Keyword × Nat) :=
  if begins p.1 text then longer found (some (p.2, p.1.length)) else found

/-- The find is made spelling by spelling. -/
theorem longest?_eq_foldl (text : List Char) : longest? text = spellings.foldl (look text) none :=
  rfl

theorem longest?_eq_written (text : List Char) :
    longest? text = written.1.foldl (look text) none :=
  (longest?_eq_foldl text).trans (congrArg (List.foldl (look text) none) written.2)

/-- The find depends on nothing but the spellings that the text begins with. -/
theorem longest?_congr {s t : List Char} (h : ∀ p ∈ spellings, begins p.1 s = begins p.1 t) :
    longest? s = longest? t := by
  rw [longest?_eq_foldl, longest?_eq_foldl]
  exact List.foldl_ext _ _ _ fun found p hp ↦ by rw [look, look, h p hp]

/-- Where the text begins with none of them, nothing is found. -/
theorem longest?_eq_none {text : List Char} (h : ∀ p ∈ spellings, begins p.1 text = false) :
    longest? text = none := by
  calc longest? text = spellings.foldl (look text) none := longest?_eq_foldl text
    _ = spellings.foldl (fun found _ ↦ found) none :=
        List.foldl_ext _ _ _ fun found p hp ↦ by
          rw [look, if_neg (Bool.eq_false_iff.1 (h p hp))]
    _ = none := List.foldl_fixed' (fun _ ↦ rfl) _

/-- There is a find of at least the length. -/
def Reaches (n : Nat) (found : Option (Keyword × Nat)) : Prop := ∃ a, found = some a ∧ n ≤ a.2

/-- A find of some length is only given up for a longer one, -/
theorem Reaches.longer_left {n : Nat} {found : Option (Keyword × Nat)} (h : Reaches n found)
    (other : Option (Keyword × Nat)) : Reaches n (longer found other) := by
  obtain ⟨⟨v, m⟩, rfl, hn⟩ := h
  rcases other with - | ⟨w, k⟩
  · exact ⟨_, rfl, hn⟩
  · show Reaches n (if m < k then some (w, k) else some (v, m))
    split
    · exact ⟨_, rfl, Nat.le_trans hn (Nat.le_of_lt ‹m < k›)⟩
    · exact ⟨_, rfl, hn⟩

/-- from whichever side it comes. -/
theorem Reaches.longer_right {n : Nat} {other : Option (Keyword × Nat)} (h : Reaches n other)
    (found : Option (Keyword × Nat)) : Reaches n (longer found other) := by
  obtain ⟨⟨w, k⟩, rfl, hn⟩ := h
  rcases found with - | ⟨v, m⟩
  · exact ⟨_, rfl, hn⟩
  · show Reaches n (if m < k then some (w, k) else some (v, m))
    split
    · exact ⟨_, rfl, hn⟩
    · exact ⟨_, rfl, Nat.le_trans hn (Nat.le_of_not_lt ‹¬m < k›)⟩

/-- The find is at least as long as any spelling that the text begins with. -/
theorem reaches_longest? {text : List Char} {p : List Char × Keyword} (hp : p ∈ spellings)
    (hbegins : begins p.1 text = true) : Reaches p.1.length (longest? text) := by
  -- Once found, a spelling is given up only for a longer one.
  have hfold : ∀ (ps : List (List Char × Keyword)) (found : Option (Keyword × Nat)),
      (Reaches p.1.length found ∨ p ∈ ps) → Reaches p.1.length (ps.foldl (look text) found) := by
    intro ps
    induction ps with
    | nil => exact fun found h ↦ h.resolve_right List.not_mem_nil
    | cons q ps ih =>
      intro found h
      refine ih _ ?_
      rcases h with h | h
      · left
        unfold look
        split
        · exact h.longer_left _
        · exact h
      · rcases List.mem_cons.1 h with rfl | h
        · left
          rw [look, if_pos hbegins]
          exact Reaches.longer_right ⟨_, rfl, Nat.le_refl _⟩ _
        · exact .inr h
  rw [longest?_eq_foldl]
  exact hfold spellings none (.inr hp)

/-- Behind a spelling the text does not matter. -/
theorem begins_append {spelling text : List Char} (h : spelling.length ≤ text.length)
    (more : List Char) : begins spelling (text ++ more) = begins spelling text := by
  induction spelling generalizing text with
  | nil => rfl
  | cons s spelling ih =>
    cases text with
    | nil => exact absurd h (Nat.not_succ_le_zero _)
    | cons c text =>
      rw [List.cons_append, begins, begins, ih (Nat.le_of_succ_le_succ h)]

/-- A spelling is no longer than a text that begins with it. -/
theorem length_le_of_begins {spelling text : List Char} (h : begins spelling text = true) :
    spelling.length ≤ text.length := by
  induction spelling generalizing text with
  | nil => exact Nat.zero_le _
  | cons s spelling ih =>
    cases text with
    | nil => exact nomatch h
    | cons c text =>
      rw [begins, Bool.and_eq_true] at h
      exact Nat.succ_le_succ (ih h.2)

/-- A word ends in front of a character that is in no word. -/
theorem begins_append_of_notMem {spelling text more : List Char}
    (h : ∀ c, more.head? = some c → foldCase c ∉ spelling) :
    begins spelling (text ++ more) = begins spelling text := by
  induction text generalizing spelling with
  | nil =>
    cases spelling with
    | nil => rfl
    | cons s spelling =>
      cases more with
      | nil => rfl
      | cons c more =>
        have hne : s ≠ foldCase c := fun hs ↦ h c rfl (hs ▸ List.mem_cons_self)
        rw [List.nil_append, begins, begins, beq_eq_false_iff_ne.2 hne, Bool.false_and]
  | cons d text ih =>
    cases spelling with
    | nil => rfl
    | cons s spelling =>
      rw [List.cons_append, begins, begins, ih fun c hc hmem ↦ h c hc (List.mem_cons_of_mem _ hmem)]

/-- If no word longer than the text is found in a longer one, the same word is found in both. -/
theorem longest?_append {text more : List Char}
    (h : ∀ a, longest? (text ++ more) = some a → a.2 ≤ text.length) :
    longest? (text ++ more) = longest? text := by
  refine longest?_congr fun p hp ↦ ?_
  by_cases hle : p.1.length ≤ text.length
  · exact begins_append hle more
  · have hlong : begins p.1 (text ++ more) = false := by
      rw [Bool.eq_false_iff]
      intro hbegins
      obtain ⟨a, ha, hn⟩ := reaches_longest? hp hbegins
      exact hle (Nat.le_trans hn (h a ha))
    have hshort : begins p.1 text = false := by
      rw [Bool.eq_false_iff]
      exact fun hbegins ↦ hle (length_le_of_begins hbegins)
    rw [hlong, hshort]

/-- What is found is a spelling that the text begins with. -/
theorem exists_begins_of_longest? {text : List Char} {a : Keyword × Nat}
    (h : longest? text = some a) : ∃ p ∈ spellings, begins p.1 text = true ∧ a.2 = p.1.length := by
  -- Of two finds the longer one is one of the two.
  have hlonger : ∀ (first second : Option (Keyword × Nat)) (a : Keyword × Nat),
      longer first second = some a → first = some a ∨ second = some a := by
    rintro (- | ⟨v, m⟩) (- | ⟨w, k⟩) a h
    · cases h
    · exact .inr h
    · exact .inl h
    · rw [longer] at h
      split at h
      · exact .inr h
      · exact .inl h
  have hfold : ∀ (ps : List (List Char × Keyword)) (found : Option (Keyword × Nat)),
      ps.foldl (look text) found = some a →
      found = some a ∨ ∃ p ∈ ps, begins p.1 text = true ∧ a.2 = p.1.length := by
    intro ps
    induction ps with
    | nil => exact fun found h ↦ .inl h
    | cons q ps ih =>
      intro found h
      rcases ih _ h with h | ⟨p, hp, hbegins⟩
      · unfold look at h
        split at h
        · rcases hlonger _ _ _ h with h | h
          · exact .inl h
          · exact .inr ⟨q, List.mem_cons_self, ‹_›, congrArg Prod.snd (Option.some.inj h).symm⟩
        · exact .inl h
      · exact .inr ⟨p, List.mem_cons_of_mem _ hp, hbegins⟩
  rw [longest?_eq_foldl] at h
  exact (hfold spellings none h).resolve_left (Option.some_ne_none a).symm

/-- What comes before the letters has no case. -/
theorem foldCase_of_lt {c : Char} (h : c.toNat < 65) : foldCase c = c := by
  have hle : ∀ d : Char, 65 ≤ d.toNat → ¬d ≤ c := by
    intro d hd hdc
    have hcd : d.toNat ≤ c.toNat := hdc
    omega
  have hne : ∀ d : Char, 65 ≤ d.toNat → c ≠ d := by
    rintro d hd rfl
    omega
  unfold foldCase
  rw [if_neg (by simp [hle 'A' (by decide), hle 'А' (by decide)])]
  split <;> first | rfl | exact absurd rfl (hne _ (by decide))

end Keyword

end BslLint
