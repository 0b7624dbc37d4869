import BslLint.Proofs.Grammar.Combinators

/-!
# Reading without faults

`p.Reads ts cs us` says that the parser `p` makes the trees `cs` from the front of `ts`, meets no
fault and leaves `us`. For each combinator this is told by what it is put together from. From right
to left these equivalences run a parser on given tokens, and from left to right they tell what a
parser that succeeded has seen.
-/

namespace BslLint.Parser

/-- The parser makes the trees and leaves the tokens `us`, without a fault. -/
def Reads (p : Parser) (ts : List Token) (cs : List Tree) (us : List Token) : Prop :=
  (p ts).trees = cs ∧ (p ts).faults = [] ∧ (p ts).rest = us

variable {p q : Parser} {ts us : List Token} {cs : List Tree}

/-- The tokens read are those of the trees. -/
theorem Reads.tokens_append (h : p.Reads ts cs us) : Tree.tokensAll cs ++ us = ts := by
  obtain ⟨rfl, -, rfl⟩ := h
  exact (p ts).tokens_append_rest

/-- Reading leaves no more than there was. -/
theorem Reads.length_le (h : p.Reads ts cs us) : us.length ≤ ts.length := by
  rw [← h.2.2]
  exact (p ts).length_rest_le

/-- Without a fault the parser has read what it has made. -/
theorem reads_of_faults_eq_nil (h : (p ts).faults = []) :
    p.Reads ts (p ts).trees (p ts).rest := ⟨rfl, h, rfl⟩

/-- Only what the parser does on these tokens matters. -/
theorem reads_congr (h : p ts = q ts) : p.Reads ts cs us ↔ q.Reads ts cs us := by
  rw [Reads, Reads, h]

/-! ### One combinator at a time -/

theorem reads_nothing : nothing.Reads ts cs us ↔ cs = [] ∧ us = ts :=
  ⟨fun ⟨hcs, _, hus⟩ ↦ ⟨hcs.symm, hus.symm⟩, fun ⟨hcs, hus⟩ ↦ ⟨hcs.symm, rfl, hus.symm⟩⟩

theorem reads_one_cons {t : Token} : one.Reads (t :: ts) cs us ↔ cs = [.leaf t] ∧ us = ts :=
  ⟨fun ⟨hcs, _, hus⟩ ↦ ⟨hcs.symm, hus.symm⟩, fun ⟨hcs, hus⟩ ↦ ⟨hcs.symm, rfl, hus.symm⟩⟩

/-- Where a token is left, it is read. -/
theorem reads_one (hts : ts ≠ []) : one.Reads ts cs us ↔ ∃ t, ts = t :: us ∧ cs = [.leaf t] := by
  cases ts with
  | nil => exact absurd rfl hts
  | cons t ts =>
    rw [reads_one_cons]
    constructor
    · rintro ⟨rfl, rfl⟩
      exact ⟨t, rfl, rfl⟩
    · rintro ⟨t', h, rfl⟩
      obtain ⟨rfl, rfl⟩ := List.cons.inj h
      exact ⟨rfl, rfl⟩

/-- Where something is missing there is a fault. -/
theorem not_reads_missing {wanted : Expectation} : ¬(missing wanted).Reads ts cs us :=
  fun h ↦ nomatch h.2.1

/-- Two parsers read what the first reads and what the second reads behind it. -/
theorem reads_seq : (p ++ q).Reads ts cs us ↔
    ∃ ds es vs, p.Reads ts ds vs ∧ q.Reads vs es us ∧ cs = ds ++ es := by
  constructor
  · rintro ⟨rfl, hfaults, rfl⟩
    rw [faults_seq, List.append_eq_nil_iff] at hfaults
    exact ⟨_, _, _, reads_of_faults_eq_nil hfaults.1, reads_of_faults_eq_nil hfaults.2, rfl⟩
  · rintro ⟨ds, es, vs, ⟨rfl, hp, rfl⟩, ⟨rfl, hq, rfl⟩, rfl⟩
    exact ⟨rfl, by rw [faults_seq, hp, hq, List.append_nil], rfl⟩

/-- What two parsers read one behind the other is read by both in a row. -/
theorem Reads.seq {ds es : List Tree} {vs : List Token} (hp : p.Reads ts ds vs)
    (hq : q.Reads vs es us) : (p ++ q).Reads ts (ds ++ es) us :=
  reads_seq.2 ⟨ds, es, vs, hp, hq, rfl⟩

/-- What the first parser makes and leaves is settled by what it is given. -/
theorem Reads.seq_iff {ds : List Tree} {vs : List Token} (hp : p.Reads ts ds vs) :
    (p ++ q).Reads ts cs us ↔ ∃ es, q.Reads vs es us ∧ cs = ds ++ es := by
  constructor
  · intro h
    obtain ⟨ds', es, vs', ⟨hds, -, hvs⟩, hq, rfl⟩ := reads_seq.1 h
    obtain rfl := hp.1.symm.trans hds
    obtain rfl := hp.2.2.symm.trans hvs
    exact ⟨es, hq, rfl⟩
  · rintro ⟨es, hq, rfl⟩
    exact hp.seq hq

/-- A node is read if what is in it is. -/
theorem reads_node {k : NodeKind} :
    (node k p).Reads ts cs us ↔ ∃ ds, p.Reads ts ds us ∧ cs = [.node k ds] := by
  constructor
  · rintro ⟨rfl, hfaults, rfl⟩
    exact ⟨_, reads_of_faults_eq_nil hfaults, rfl⟩
  · rintro ⟨ds, ⟨rfl, hp, rfl⟩, rfl⟩
    exact ⟨rfl, hp, rfl⟩

theorem Reads.node {ds : List Tree} (h : p.Reads ts ds us) (k : NodeKind) :
    (Parser.node k p).Reads ts [.node k ds] us :=
  reads_node.2 ⟨ds, h, rfl⟩

theorem reads_select {choice : Option Token.Kind → Parser} :
    (select choice).Reads ts cs us ↔ (choice (peek ts)).Reads ts cs us := Iff.rfl

/-- The next token chooses by its kind. -/
theorem reads_select_cons {choice : Option Token.Kind → Parser} {t : Token} {k : Token.Kind}
    (ht : t.kind = k) :
    (select choice).Reads (t :: ts) cs us ↔ (choice (some k)).Reads (t :: ts) cs us := by
  rw [reads_select, show peek (t :: ts) = some k from congrArg some ht]

section

variable {ahead : List Token → Bool}

/-- Only the way that is taken matters: -/
theorem reads_ifAhead_pos (h : ahead ts = true) :
    (ifAhead ahead p q).Reads ts cs us ↔ p.Reads ts cs us := reads_congr (ifAhead_pos h)

/-- the other one is not looked at. -/
theorem reads_ifAhead_neg (h : ahead ts = false) :
    (ifAhead ahead p q).Reads ts cs us ↔ q.Reads ts cs us := reads_congr (ifAhead_neg h)

theorem reads_when_pos (h : ahead ts = true) :
    (when ahead p).Reads ts cs us ↔ p.Reads ts cs us := reads_ifAhead_pos h

/-- Where the condition does not hold nothing is read. -/
theorem reads_when_neg (h : ahead ts = false) :
    (when ahead p).Reads ts cs us ↔ cs = [] ∧ us = ts :=
  (reads_ifAhead_neg h).trans reads_nothing

end

/-! ### The next token -/

theorem isAt_cons {k : Token.Kind} {t : Token} : isAt k (t :: ts) = (t.kind == k) := rfl

/-- A kind is ahead if a token of this kind comes first. -/
theorem isAt_iff {k : Token.Kind} : isAt k ts = true ↔ ∃ t us, ts = t :: us ∧ t.kind = k := by
  cases ts with
  | nil => exact ⟨nofun, nofun⟩
  | cons t ts =>
    rw [isAt_cons, beq_iff_eq]
    constructor
    · exact fun h ↦ ⟨t, ts, rfl, h⟩
    · rintro ⟨t', us, h, ht⟩
      rwa [(List.cons.inj h).1]

/-- A token that has to be of a kind. -/
theorem reads_ifAhead_isAt {k : Token.Kind} {wanted : Expectation} :
    (ifAhead (isAt k) one (missing wanted)).Reads ts cs us ↔
      ∃ t, t.kind = k ∧ ts = t :: us ∧ cs = [.leaf t] := by
  by_cases h : isAt k ts = true
  · obtain ⟨t, vs, rfl, ht⟩ := isAt_iff.1 h
    rw [reads_ifAhead_pos h, reads_one_cons]
    constructor
    · rintro ⟨rfl, rfl⟩
      exact ⟨t, ht, rfl, rfl⟩
    · rintro ⟨t', ht', htu, rfl⟩
      obtain ⟨rfl, rfl⟩ := List.cons.inj htu
      exact ⟨rfl, rfl⟩
  · rw [reads_ifAhead_neg (Bool.eq_false_iff.2 h)]
    refine ⟨fun hreads ↦ absurd hreads not_reads_missing, ?_⟩
    rintro ⟨t, ht, rfl, -⟩
    exact absurd (isAt_iff.2 ⟨t, us, rfl, ht⟩) h

/-- A token is read without a fault just if it is there. -/
theorem reads_expect {k : Token.Kind} :
    (expect k).Reads ts cs us ↔ ∃ t, t.kind = k ∧ ts = t :: us ∧ cs = [.leaf t] :=
  reads_ifAhead_isAt

/-- A name is an identifier. -/
theorem reads_expectName {wanted : Expectation} : (expectName wanted).Reads ts cs us ↔
    ∃ t, t.kind = .identifier ∧ ts = t :: us ∧ cs = [.leaf t] :=
  reads_ifAhead_isAt

theorem Reads.token (t : Token) (us : List Token) : one.Reads (t :: us) [.leaf t] us :=
  reads_one_cons.2 ⟨rfl, rfl⟩

theorem Reads.expect {k : Token.Kind} {t : Token} (ht : t.kind = k) (us : List Token) :
    (Parser.expect k).Reads (t :: us) [.leaf t] us :=
  reads_expect.2 ⟨t, ht, rfl, rfl⟩

theorem Reads.name {t : Token} (ht : t.kind = .identifier) (wanted : Expectation)
    (us : List Token) :
    (expectName wanted).Reads (t :: us) [.leaf t] us :=
  reads_expectName.2 ⟨t, ht, rfl, rfl⟩

/-! ### Repetition -/

section

variable {ahead : List Token → Bool}

/-- A fault in the first round is a fault of the repetition. -/
theorem faults_eq_nil_of_many (hahead : ahead ts = true)
    (h : (Parser.many ahead p ts).faults = []) :
    (p ts).faults = [] := by
  by_cases hgo : (p ts).rest.length < ts.length
  · rw [many_of_go hahead hgo] at h
    exact (List.append_eq_nil_iff.1 h).1
  · rwa [many_of_stall hahead hgo] at h

/-- A repetition ends where its condition does not hold. -/
theorem Reads.many_nil (h : ahead ts = false) : (Parser.many ahead p).Reads ts [] ts := by
  rw [Reads, many_of_stop h]
  exact ⟨rfl, rfl, rfl⟩

/-- A round that reads something may be followed by others. -/
theorem Reads.many_cons {ds : List Tree} {vs : List Token} (hahead : ahead ts = true)
    (hp : p.Reads ts cs vs) (hlt : vs.length < ts.length)
    (hrest : (Parser.many ahead p).Reads vs ds us) :
    (Parser.many ahead p).Reads ts (cs ++ ds) us := by
  obtain ⟨rfl, hfaults, rfl⟩ := hp
  obtain ⟨rfl, hfaults', rfl⟩ := hrest
  rw [Reads, many_of_go hahead hlt]
  refine ⟨rfl, ?_, rfl⟩
  show (p ts).faults ++ (Parser.many ahead p (p ts).rest).faults = []
  rw [hfaults, hfaults', List.append_nil]

/-- A repetition that met no fault has read a list of rounds. The last of them may have read
nothing. -/
theorem Reads.many_elim {R : List Token → List Tree → Prop} {S : List Token → List Tree → Prop}
    (nil : R [] []) (cons : ∀ {u v cs ds}, S u cs → R v ds → R (u ++ v) (cs ++ ds)) {n : Nat}
    (round : ∀ {ts cs us}, ts.length < n → ahead ts = true → p.Reads ts cs us →
      ∃ w, ts = w ++ us ∧ S w cs)
    (hn : ts.length < n) (h : (Parser.many ahead p).Reads ts cs us) :
    ∃ w, ts = w ++ us ∧ R w cs := by
  obtain ⟨rfl, hfaults, rfl⟩ := h
  revert hn hfaults
  refine many_induction (motive := fun ts s ↦ ts.length < n → s.faults = [] →
    ∃ w, ts = w ++ s.rest ∧ R w s.trees) (fun ts _ _ _ ↦ ⟨[], rfl, nil⟩)
    (fun ts hahead _ hn hfaults ↦ ?_) (fun ts hahead hgo ih hn hfaults ↦ ?_) ts
  · obtain ⟨w, hw, hS⟩ := round hn hahead (reads_of_faults_eq_nil hfaults)
    have hR := cons hS nil
    rw [List.append_nil, List.append_nil] at hR
    exact ⟨w, hw, hR⟩
  · replace hfaults : (p ts).faults ++ (Parser.many ahead p (p ts).rest).faults = [] := hfaults
    rw [List.append_eq_nil_iff] at hfaults
    obtain ⟨u, hu, hS⟩ := round hn hahead (reads_of_faults_eq_nil hfaults.1)
    obtain ⟨v, hv, hR⟩ := ih (Nat.lt_trans hgo hn) hfaults.2
    refine ⟨u ++ v, hu.trans ?_, cons hS hR⟩
    rw [List.append_assoc]
    exact congrArg (u ++ ·) hv

end

end BslLint.Parser
