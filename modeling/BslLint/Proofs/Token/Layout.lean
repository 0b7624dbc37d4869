import BslLint.Proofs.Token.Order

/-!
# All of a text is accounted for

What is told of a text are its tokens and the pieces that are unknown, its **items**. They are laid
out in the text one behind the other (`LaidOut`), and what stands in front of them, between them and
behind them is a `Gap`: white space, comments and preprocessor lines, of which the last two always
reach to the end of their lines. Hence nothing of the text is lost.

Each item has the place that is reached by moving over all that stands in front of it, gaps and
unknown pieces included. So the places of a text belong to prefixes of it, of which one is always a
prefix of the other; this is why places are in the same order by line and column as by offset.
-/

namespace BslLint

/-! ### Gaps -/

/-- White space, or a comment or a preprocessor line that reaches to the end of its line, in front
of some other text. -/
inductive IsTrivia (piece rest : List Char) : Prop where
  /-- White space. -/
  | blank (h : ∀ c ∈ piece, isBlank c = true)
  /-- A mark and what follows it on its line. -/
  | line (mark body : List Char) (hmark : mark = ['#'] ∨ mark = ['/', '/'])
      (hpiece : piece = mark ++ body) (hbody : ∀ c ∈ body, isLineEnd c = false)
      (hrest : ∀ c, rest.head? = some c → isLineEnd c = true)

/-- Any number of such pieces in front of some other text. -/
inductive Gap : List Char → List Char → Prop where
  /-- No piece. -/
  | nil (rest : List Char) : Gap [] rest
  /-- One more piece in front. -/
  | cons {piece gap rest : List Char} (hpiece : IsTrivia piece (gap ++ rest))
      (hgap : Gap gap rest) :
      Gap (piece ++ gap) rest

/-- A run of characters of a kind, and what is behind it. -/
theorem splitAt_takeWhile (p : Char → Bool) (text : List Char) :
    text.take (text.takeWhile p).length = text.takeWhile p ∧
      text.drop (text.takeWhile p).length = text.dropWhile p := by
  have hsplit := List.takeWhile_append_dropWhile (p := p) (l := text)
  have htake := @List.take_left _ (text.takeWhile p) (text.dropWhile p)
  have hdrop := @List.drop_left _ (text.takeWhile p) (text.dropWhile p)
  rw [hsplit] at htake hdrop
  exact ⟨htake, hdrop⟩

namespace Lexeme

/-- What a comment or a preprocessor line leaves of a text begins with the end of the line. -/
theorem isLineEnd_of_dropWhile {rest : List Char} :
    ∀ c, (rest.dropWhile (!isLineEnd ·)).head? = some c → isLineEnd c = true := by
  intro c hc
  have hstop := List.head?_dropWhile_not (fun c ↦ !isLineEnd c) rest
  rw [hc] at hstop
  replace hstop : (!isLineEnd c) = false := hstop
  rwa [Bool.not_eq_false'] at hstop

/-- What a comment or a preprocessor line consists of besides its mark. -/
theorem isLineEnd_of_mem_takeWhile {rest : List Char} :
    ∀ c ∈ rest.takeWhile (!isLineEnd ·), isLineEnd c = false := by
  intro c hc
  have hinside := List.mem_takeWhile_imp hc
  rwa [Bool.not_eq_true'] at hinside

/-- Strings, dates, annotations and signs are told of, and so is what resembles them. -/
theorem signs_ne_trivia (c : Char) (rest : List Char) :
    (stringHead rest).1 ≠ .trivia ∧ (dateHead rest).1 ≠ .trivia ∧
      (directiveHead rest).1 ≠ .trivia ∧ (signHead c rest).1 ≠ .trivia := by
  refine ⟨?_, ?_, ?_, ?_⟩
  · unfold stringHead
    split <;> exact nofun
  · unfold dateHead
    simp only
    split <;> exact nofun
  · unfold directiveHead
    split
    · split <;> exact nofun
    · exact nofun
  · unfold signHead
    split <;> exact nofun

/-- Nothing that begins with a sign is left out but white space, comments and preprocessor lines. -/
theorem isTrivia_of_otherHead {c : Char} {rest : List Char} {n : Nat}
    (h : otherHead c rest = (.trivia, n)) : IsTrivia (c :: rest.take n) (rest.drop n) := by
  unfold otherHead at h
  split at h
  next hblank =>
    obtain ⟨-, rfl⟩ := Prod.mk.inj h
    rw [(splitAt_takeWhile isBlank rest).1]
    exact .blank (List.forall_mem_cons.2 ⟨hblank, fun d hd ↦ List.mem_takeWhile_imp hd⟩)
  next =>
    split at h
    next hmark =>
      obtain ⟨-, rfl⟩ := Prod.mk.inj h
      obtain ⟨htake, hdrop⟩ := splitAt_takeWhile (!isLineEnd ·) rest
      rw [htake, hdrop]
      rw [Bool.or_eq_true, Bool.and_eq_true, decide_eq_true_eq, decide_eq_true_eq,
        decide_eq_true_eq] at hmark
      obtain rfl | ⟨rfl, hslash⟩ := hmark
      · exact .line ['#'] _ (.inl rfl) rfl isLineEnd_of_mem_takeWhile isLineEnd_of_dropWhile
      · -- the second slash belongs to the mark
        obtain ⟨rest, rfl⟩ : ∃ rest', rest = '/' :: rest' := by
          cases rest with
          | nil => exact nomatch hslash
          | cons d rest => exact ⟨rest, by rw [Option.some.inj hslash]⟩
        exact .line ['/', '/'] _ (.inr rfl) rfl isLineEnd_of_mem_takeWhile isLineEnd_of_dropWhile
    next =>
      -- The other signs begin tokens or nothing at all.
      obtain ⟨hstring, hdate, hdirective, hsign⟩ := signs_ne_trivia c rest
      split at h
      · exact nomatch h
      · split at h
        · exact absurd (congrArg Prod.fst h) hstring
        · split at h
          · exact absurd (congrArg Prod.fst h) hdate
          · split at h
            · exact absurd (congrArg Prod.fst h) hdirective
            · exact absurd (congrArg Prod.fst h) hsign

/-- What the lexemes leave out is white space, a comment or a preprocessor line. -/
theorem isTrivia_of_head {c : Char} {rest : List Char} {n : Nat} (h : head c rest = (.trivia, n)) :
    IsTrivia (c :: rest.take n) (rest.drop n) := by
  unfold head at h
  simp only at h
  split at h
  · split at h <;> exact nomatch h
  · split at h
    · exact isTrivia_of_otherHead h
    · exact nomatch h

end Lexeme

/-! ### Items -/

namespace Scan

/-- What is told of a piece of text: that it is a token, or that it is unknown. -/
inductive Item where
  | token (t : Token)
  | unknown (u : UnknownText)
  deriving DecidableEq, Repr

/-- Where a piece begins. -/
def Item.start : Item → Position
  | token t => t.start
  | unknown u => u.position

/-- The piece itself. -/
def Item.text : Item → List Char
  | token t => t.text.toList
  | unknown u => u.text.toList

/-- Where a piece has ended, if that is told. -/
def Item.stop? : Item → Option Position
  | token t => some t.stop
  | unknown _ => none

/-- The tokens and the unknown pieces in the order of their offsets. -/
def items (s : Scan) : List Item :=
  (s.tokens.map Item.token).merge (s.unknown.map Item.unknown)
    fun i j ↦ decide (i.start.offset ≤ j.start.offset)

/-- The places that are told of a text. -/
def positions (s : Scan) : List Position :=
  s.items.flatMap fun i ↦ i.start :: i.stop?.toList

end Scan

/-- Items are laid out in a text that begins at a place: there is a gap in front of each, it has its
text and its places, and the others are laid out in what is behind it. -/
inductive LaidOut : Position → List Char → List Scan.Item → Prop where
  /-- There is nothing but a gap. -/
  | done {p : Position} {gap : List Char} (hgap : Gap gap []) : LaidOut p gap []
  /-- One more item in front. -/
  | item {p : Position} {gap rest : List Char} {i : Scan.Item} {is : List Scan.Item}
      (hgap : Gap gap (i.text ++ rest)) (hne : i.text ≠ []) (hstart : i.start = p.advance gap)
      (hstop : ∀ q, i.stop? = some q → q = i.start.advance i.text)
      (hrest : LaidOut (i.start.advance i.text) rest is) :
      LaidOut p (gap ++ (i.text ++ rest)) (i :: is)

/-- What is left out may come in front. -/
theorem LaidOut.after {p : Position} {piece text : List Char} {is : List Scan.Item}
    (hpiece : IsTrivia piece text) (h : LaidOut (p.advance piece) text is) :
    LaidOut p (piece ++ text) is := by
  cases h with
  | done hgap => exact .done (.cons (by rwa [List.append_nil]) hgap)
  | item hgap hne hstart hstop hrest =>
    rw [← List.append_assoc]
    refine .item (.cons hpiece hgap) hne ?_ hstop hrest
    rw [hstart, Position.advance_append]

/-- There need not be a gap in front of an item. -/
theorem LaidOut.cons {p : Position} {text rest : List Char} {i : Scan.Item} {is : List Scan.Item}
    (htext : i.text = text) (hne : text ≠ []) (hstart : i.start = p)
    (hstop : ∀ q, i.stop? = some q → q = p.advance text)
    (hrest : LaidOut (p.advance text) rest is) : LaidOut p (text ++ rest) (i :: is) := by
  subst htext hstart
  rw [← List.nil_append (i.text ++ rest)]
  exact .item (.nil _) hne rfl hstop hrest

/-! ### Pieces that are given their places -/

/-- A text that is not empty has bytes. -/
theorem Position.offset_lt_advance (p : Position) {text : List Char} (h : text ≠ []) :
    p.offset < (p.advance text).offset := by
  cases text with
  | nil => exact absurd rfl h
  | cons c text =>
    have hpos := c.utf8Size_pos
    rw [offset_advance, String.utf8Len_cons]
    omega

/-- In a merge the lesser of the two fronts comes first, be it on the left -/
theorem merge_cons_left {α : Type*} {le : α → α → Bool} {a : α} {as bs : List α}
    (h : ∀ b ∈ bs, le a b = true) : (a :: as).merge bs le = a :: as.merge bs le := by
  cases bs with
  | nil => rw [List.merge_right, List.merge_right]
  | cons b bs => exact List.cons_merge_cons_pos le as bs (h b List.mem_cons_self)

/-- or on the right. -/
theorem merge_cons_right {α : Type*} {le : α → α → Bool} {b : α} {as bs : List α}
    (h : ∀ a ∈ as, ¬ le a b = true) : as.merge (b :: bs) le = b :: as.merge bs le := by
  cases as with
  | nil => rw [List.nil_merge, List.nil_merge]
  | cons a as => exact List.cons_merge_cons_neg le as bs (h a List.mem_cons_self)

namespace Scan

/-- The items are the tokens and the unknown pieces. -/
theorem mem_items_iff {s : Scan} {i : Item} :
    i ∈ s.items ↔ (∃ t ∈ s.tokens, .token t = i) ∨ ∃ u ∈ s.unknown, .unknown u = i := by
  rw [items, List.mem_merge, List.mem_map, List.mem_map]

theorem items_place_nil (p : Position) : (place p []).items = [] :=
  List.merge_right []

/-- Nothing begins in front of the first piece. -/
theorem offset_le_of_mem_items {p : Position} {ls : List Lexeme} {i : Item}
    (h : i ∈ (place p ls).items) : p.offset ≤ i.start.offset := by
  induction ls generalizing p with
  | nil =>
    rw [items_place_nil] at h
    exact nomatch h
  | cons l ls ih =>
    -- Going over a piece of text never goes back.
    have hmove : p.offset ≤ (p.advance l.text).offset := by
      rw [Position.offset_advance]
      exact Nat.le_add_right _ _
    have hlater : i ∈ (place (p.advance l.text) ls).items → p.offset ≤ i.start.offset :=
      fun hi ↦ hmove.trans (ih hi)
    rw [mem_items_iff] at h hlater
    obtain ⟨kind, text⟩ := l
    cases kind with
    | token k =>
      rcases h with ⟨t, ht, rfl⟩ | hu
      · rcases List.mem_cons.1 ht with rfl | ht
        · exact Nat.le_refl _
        · exact hlater (.inl ⟨t, ht, rfl⟩)
      · exact hlater (.inr hu)
    | trivia => exact hlater h
    | unknown =>
      rcases h with ht | ⟨u, hu, rfl⟩
      · exact hlater (.inl ht)
      · rcases List.mem_cons.1 hu with rfl | hu
        · exact Nat.le_refl _
        · exact hlater (.inr ⟨u, hu, rfl⟩)

variable {p : Position} {text : List Char}

/-- What comes later begins behind a piece. -/
theorem offset_lt_of_later (hne : text ≠ []) {ls : List Lexeme} {i : Item}
    (h : i ∈ (place (p.advance text) ls).items) : p.offset < i.start.offset :=
  (p.offset_lt_advance hne).trans_le (offset_le_of_mem_items h)

/-- A token in front of other pieces is the first of the items, -/
theorem items_place_token (hne : text ≠ []) (k : Token.Kind) (ls : List Lexeme) :
    (place p (⟨.token k, text⟩ :: ls)).items =
      .token ⟨k, String.ofList text, p, p.advance text⟩ :: (place (p.advance text) ls).items := by
  refine merge_cons_left fun j hj ↦ decide_eq_true (Nat.le_of_lt ?_)
  obtain ⟨u, hu, rfl⟩ := List.mem_map.1 hj
  exact offset_lt_of_later hne (mem_items_iff.2 (.inr ⟨u, hu, rfl⟩))

/-- and so is an unknown piece. -/
theorem items_place_unknown (hne : text ≠ []) (ls : List Lexeme) :
    (place p (⟨.unknown, text⟩ :: ls)).items =
      .unknown ⟨p, String.ofList text⟩ :: (place (p.advance text) ls).items := by
  refine merge_cons_right fun j hj ↦ ?_
  rw [decide_eq_true_eq, Nat.not_le]
  obtain ⟨t, ht, rfl⟩ := List.mem_map.1 hj
  exact offset_lt_of_later hne (mem_items_iff.2 (.inl ⟨t, ht, rfl⟩))

/-- The pieces of a text are laid out in it. -/
theorem laidOut_place (p : Position) (text : List Char) :
    LaidOut p text (place p (lexemes text)).items := by
  fun_induction lexemes text generalizing p with
  | case1 =>
    rw [items_place_nil]
    exact .done (.nil [])
  | case2 c rest kind n hhead ih =>
    -- Each lexeme takes a character at least, so no piece is empty.
    have hne : c :: rest.take n ≠ [] := List.cons_ne_nil _ _
    have htext : c :: rest = (c :: rest.take n) ++ rest.drop n :=
      congrArg (c :: ·) (List.take_append_drop n rest).symm
    rw [htext]
    cases kind with
    | token k =>
      rw [items_place_token hne]
      exact .cons String.toList_ofList hne rfl (fun q hq ↦ (Option.some.inj hq).symm) (ih _)
    | trivia => exact .after (Lexeme.isTrivia_of_head hhead) (ih _)
    | unknown =>
      rw [items_place_unknown hne]
      exact .cons String.toList_ofList hne rfl
        (fun q hq ↦ absurd hq.symm (Option.some_ne_none q)) (ih _)

end Scan

/-! ### Slices -/

/-- An item is a slice of a text that is not empty, and has the places before and behind it. -/
def Scan.Item.IsSliceOf (i : Scan.Item) (text : List Char) : Prop :=
  i.text ≠ [] ∧ ∃ before after, text = before ++ (i.text ++ after) ∧
    i.start = Position.start.advance before ∧
    ∀ p, i.stop? = some p → p = Position.start.advance (before ++ i.text)

namespace LaidOut

variable {text : List Char} {is : List Scan.Item}

/-- What is laid out behind some text is a slice of all of it. -/
theorem isSliceOf {before : List Char} (h : LaidOut (Position.start.advance before) text is) :
    ∀ i ∈ is, i.IsSliceOf (before ++ text) := by
  generalize hp : Position.start.advance before = p at h
  induction h generalizing before with
  | done hgap => exact nofun
  | @item p gap rest i is hgap hne hstart hstop hrest ih =>
    have hplace : i.start = Position.start.advance (before ++ gap) := by
      rw [hstart, Position.advance_append, hp]
    have hbehind : i.start.advance i.text = Position.start.advance (before ++ gap ++ i.text) := by
      rw [hplace, ← Position.advance_append]
    have hwhole : before ++ (gap ++ (i.text ++ rest)) = before ++ gap ++ i.text ++ rest := by
      simp only [List.append_assoc]
    refine List.forall_mem_cons.2 ⟨⟨hne, before ++ gap, rest, ?_, hplace, ?_⟩, ?_⟩
    · rw [hwhole, List.append_assoc]
    · exact fun q hq ↦ (hstop q hq).trans hbehind
    · rw [hwhole]
      exact ih hbehind.symm

/-- No item begins in front of the text. -/
theorem offset_le {p : Position} (h : LaidOut p text is) : ∀ i ∈ is, p.offset ≤ i.start.offset := by
  induction h with
  | done hgap => exact nofun
  | @item p gap rest i is hgap hne hstart hstop hrest ih =>
    have hle : p.offset ≤ i.start.offset := by
      rw [hstart, Position.offset_advance]
      exact Nat.le_add_right _ _
    have hlt := i.start.offset_lt_advance hne
    exact List.forall_mem_cons.2 ⟨hle, fun j hj ↦ hle.trans (hlt.le.trans (ih j hj))⟩

/-- An item has ended before the next one begins. -/
theorem apart {p : Position} (h : LaidOut p text is) :
    is.Pairwise fun i j ↦ (i.start.advance i.text).offset ≤ j.start.offset := by
  induction h with
  | done hgap => exact .nil
  | item hgap hne hstart hstop hrest ih => exact .cons hrest.offset_le ih

end LaidOut

/-! ### Places -/

namespace Position

/-- A place in a text is reached by moving over what stands in front of it. -/
def IsIn (p : Position) (text : List Char) : Prop :=
  ∃ before, before <+: text ∧ p = start.advance before

theorem IsIn.offset_le {p : Position} {text : List Char} (h : p.IsIn text) :
    p.offset ≤ String.utf8Len text := by
  obtain ⟨before, ⟨after, rfl⟩, rfl⟩ := h
  rw [offset_advance, String.utf8Len_append, show start.offset = 0 from rfl]
  omega

/-- A place further on in a text comes later, by line and column as by offset. -/
theorem eq_or_lt_of_prefix {before before' : List Char} (h : before <+: before') :
    before = before' ∨
      (start.advance before).key < (start.advance before').key ∧
        (start.advance before).offset < (start.advance before').offset := by
  obtain ⟨between, rfl⟩ := h
  rw [advance_append]
  by_cases hne : between = []
  · exact .inl (by rw [hne, List.append_nil])
  · exact .inr ⟨key_lt_advance _ hne, offset_lt_advance _ hne⟩

/-- Of two places in a text the one with fewer bytes in front comes first by line and column. -/
theorem key_le_iff_offset_le {p q : Position} {text : List Char} (hp : p.IsIn text)
    (hq : q.IsIn text) : p.key ≤ q.key ↔ p.offset ≤ q.offset := by
  obtain ⟨before, hbefore, rfl⟩ := hp
  obtain ⟨before', hbefore', rfl⟩ := hq
  rcases List.prefix_or_prefix_of_prefix hbefore hbefore' with hle | hle
  · rcases eq_or_lt_of_prefix hle with rfl | ⟨hkey, hoffset⟩
    · exact ⟨fun _ ↦ Nat.le_refl _, fun _ ↦ le_refl _⟩
    · exact ⟨fun _ ↦ hoffset.le, fun _ ↦ hkey.le⟩
  · rcases eq_or_lt_of_prefix hle with rfl | ⟨hkey, hoffset⟩
    · exact ⟨fun _ ↦ Nat.le_refl _, fun _ ↦ le_refl _⟩
    · exact ⟨fun h ↦ absurd h hkey.not_ge, fun h ↦ absurd h hoffset.not_ge⟩

end Position

namespace Scan

variable {text : String}

theorem Item.IsSliceOf.isIn {i : Item} {cs : List Char} (h : i.IsSliceOf cs) :
    i.start.IsIn cs ∧ ∀ p, i.stop? = some p → p.IsIn cs := by
  obtain ⟨-, before, after, rfl, hstart, hstop⟩ := h
  refine ⟨⟨before, List.prefix_append _ _, hstart⟩, fun p hp ↦ ⟨before ++ i.text, ?_, hstop p hp⟩⟩
  rw [← List.append_assoc]
  exact List.prefix_append _ _

theorem laidOut_ofText (text : String) : LaidOut .start text.toList (ofText text).items :=
  laidOut_place .start text.toList

theorem isSliceOf_ofText : ∀ i ∈ (ofText text).items, i.IsSliceOf text.toList := by
  have h : LaidOut (Position.start.advance []) text.toList (ofText text).items :=
    laidOut_ofText text
  exact h.isSliceOf

/-- The places that are told of a text are places in it. -/
theorem isIn_ofText : ∀ p ∈ (ofText text).positions, p.IsIn text.toList := by
  intro p hp
  obtain ⟨i, hi, hp⟩ := List.mem_flatMap.1 hp
  obtain ⟨hstart, hstop⟩ := (isSliceOf_ofText i hi).isIn
  rcases List.mem_cons.1 hp with rfl | hp
  · exact hstart
  · exact hstop p (Option.mem_toList.1 hp)

/-- In a text of less than 4 GiB a token is where its 32-bit words say. -/
theorem extract_packedSpan (h : text.utf8ByteSize < 2 ^ 32) {t : Token}
    (ht : t ∈ (ofText text).tokens) :
    String.Pos.Raw.extract text ⟨t.packedSpan.start.toNat⟩ ⟨t.packedSpan.stop.toNat⟩ = t.text := by
  have hslice := isSliceOf_ofText _ (mem_items_iff.2 (.inl ⟨t, ht, rfl⟩))
  have hbound := (hslice.isIn.2 t.stop rfl).offset_le
  obtain ⟨-, before, after, htext, hstart, hstop⟩ := hslice
  replace hstart : t.start = Position.start.advance before := hstart
  replace htext : text.toList = before ++ (t.text.toList ++ after) := htext
  replace hstop : t.stop = t.start.advance t.text.toList := by
    rw [hstart, ← Position.advance_append]
    exact hstop t.stop rfl
  have hle : t.start.offset ≤ t.stop.offset := by
    rw [hstop, Position.offset_advance]
    exact Nat.le_add_right _ _
  rw [String.utf8Len_toList] at hbound
  -- Offsets of such a text fit into 32 bits, and so do their differences.
  have hfirst : t.packedSpan.start.toNat = t.start.offset :=
    Nat.mod_eq_of_lt ((hle.trans hbound).trans_lt h)
  have hlast : t.packedSpan.stop.toNat = t.stop.offset := by
    have hlength : t.packedSpan.length.toNat = t.stop.offset - t.start.offset :=
      Nat.mod_eq_of_lt (((Nat.sub_le _ _).trans hbound).trans_lt h)
    rw [PackedSpan.stop, UInt32.toNat_add, hfirst, hlength, Nat.add_sub_cancel' hle]
    exact Nat.mod_eq_of_lt (hbound.trans_lt h)
  have hwhole : text = String.ofList (before ++ (t.text.toList ++ after)) := by
    rw [← htext, String.ofList_toList]
  rw [hfirst, hlast, hstop, hstart, hwhole, extract_advance, String.ofList_toList]

/-- The tokens and the unknown pieces of a text account for all of it. -/
structure AccountsFor (s : Scan) (text : String) : Prop where
  /-- In front of the items, between them and behind them there are only gaps. -/
  laidOut : LaidOut .start text.toList s.items
  /-- Every item is a slice of the text with its places. -/
  isSliceOf : ∀ i ∈ s.items, i.IsSliceOf text.toList
  /-- An item begins behind the ones before it, and they have ended there. -/
  apart : s.items.Pairwise fun i j ↦
    i.start.offset < j.start.offset ∧ (i.start.advance i.text).offset ≤ j.start.offset
  /-- Places are in the same order by line and column as by offset. -/
  ordered : ∀ p ∈ s.positions, ∀ q ∈ s.positions, p.key ≤ q.key ↔ p.offset ≤ q.offset
  /-- The 32-bit words of a token cut it out of the text. -/
  extract : ∀ t ∈ s.tokens,
    String.Pos.Raw.extract text ⟨t.packedSpan.start.toNat⟩ ⟨t.packedSpan.stop.toNat⟩ = t.text

/-- **All of a text is accounted for**, and every place is right. -/
theorem accountsFor_ofText (text : String) (h : text.utf8ByteSize < 2 ^ 32) :
    (ofText text).AccountsFor text where
  laidOut := laidOut_ofText text
  isSliceOf := isSliceOf_ofText
  apart := (laidOut_ofText text).apart.imp_of_mem fun hi _ hle ↦
    ⟨(Position.offset_lt_advance _ (isSliceOf_ofText _ hi).1).trans_le hle, hle⟩
  ordered p hp q hq := Position.key_le_iff_offset_le (isIn_ofText p hp) (isIn_ofText q hq)
  extract _ ht := extract_packedSpan h ht

/-- A comment, a string of two lines and unknown text between tokens. -/
theorem accountsFor_lines :
    ("Х = \"а\n|б\"; // в\r\n#Область Г\n  $ Ж".utf8ByteSize < 2 ^ 32 ∧
      (ofText "Х = \"а\n|б\"; // в\r\n#Область Г\n  $ Ж").unknown = [⟨⟨4, 3, 43⟩, "$"⟩]) ∧
      (ofText "Х = \"а\n|б\"; // в\r\n#Область Г\n  $ Ж").AccountsFor
        "Х = \"а\n|б\"; // в\r\n#Область Г\n  $ Ж" := by
  have h : "Х = \"а\n|б\"; // в\r\n#Область Г\n  $ Ж".utf8ByteSize < 2 ^ 32 := by decide +kernel
  have hunknown : (ofText "Х = \"а\n|б\"; // в\r\n#Область Г\n  $ Ж").unknown =
      [⟨⟨4, 3, 43⟩, "$"⟩] := by
    rw [ofText_eq_evaluated]
    decide +kernel
  exact ⟨⟨h, hunknown⟩, accountsFor_ofText _ h⟩

end Scan

end BslLint
