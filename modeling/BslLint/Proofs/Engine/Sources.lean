import BslLint.Proofs.Engine.Batch

/-!
# Where the sources may be

The directory of the sources is named as seen from that of the project and may be a level above it,
but no further. What is counted are pairs of dots with a slash behind them, anywhere in the text,
and that is the number of components that end in two dots, the last one left out.

So two things are taken for what they are not: two dots at the very end lead up and are not counted,
and a longer name that ends in two dots is counted and does not lead up.
-/

namespace BslLint

namespace Path

/-- Whether a character divides the components of a path, on whichever machine. -/
def isSeparator (c : Char) : Bool := c = '/' || c = '\\'

/-- What stands between the slashes of a path. -/
def components (path : String) : List (List Char) := path.toList.splitOnP isSeparator

/-- The component that leads up by a level. -/
def twoDots : List Char := ['.', '.']

/-- Whether a component ends in two dots. -/
def endsInTwoDots (component : List Char) : Bool := twoDots.isSuffixOf component

/-- The number of components that end in two dots and have a slash behind them. -/
def levelsCounted (cs : List (List Char)) : Nat := cs.dropLast.countP endsInTwoDots

theorem ne_dot_of_isSeparator {c : Char} (h : isSeparator c = true) : c ≠ '.' := by
  rintro rfl
  exact absurd h (by decide)

theorem endsInTwoDots_cons (c : Char) (cs : List Char) :
    endsInTwoDots (c :: cs) = (c :: cs == twoDots || endsInTwoDots cs) := by
  rw [Bool.eq_iff_iff, Bool.or_eq_true, endsInTwoDots, endsInTwoDots, List.isSuffixOf_iff_suffix,
    List.isSuffixOf_iff_suffix, List.suffix_cons_iff, beq_iff_eq, eq_comm]

/-- The levels and what is counted differ by two dots at the very end and by longer names. -/
theorem levelsCounted_add {cs : List (List Char)} (h : cs ≠ []) :
    (levelsCounted cs + if cs.getLast? = some twoDots then 1 else 0) =
      cs.count twoDots + cs.dropLast.countP fun c ↦ endsInTwoDots c && c != twoDots := by
  obtain ⟨init, last, rfl⟩ : ∃ init last, cs = init ++ [last] :=
    ⟨cs.dropLast, cs.getLast h, (List.dropLast_concat_getLast h).symm⟩
  have hinit : init.countP endsInTwoDots =
      init.count twoDots + init.countP fun c ↦ endsInTwoDots c && c != twoDots := by
    -- A name that ends in two dots without being these two is what the count has too much.
    clear h
    induction init with
    | nil => rfl
    | cons c init ih =>
      rw [List.countP_cons, List.count_cons, List.countP_cons, ih]
      by_cases hc : c = twoDots
      · subst hc
        simp [show endsInTwoDots twoDots = true from rfl]
        omega
      · simp [hc]
        omega
  rw [levelsCounted, List.dropLast_concat, List.getLast?_concat, List.count_append,
    List.count_singleton, hinit]
  simp only [Option.some.injEq, beq_iff_eq]
  omega

theorem pieces_dot : pieces "." = ["."] := by
  rw [pieces, String.splitOn, if_neg (by decide), String.splitOnAux, if_neg (by decide),
    if_neg (by decide), String.splitOnAux, if_pos (by decide)]
  decide

end Path

/-- There is a directory on the disk where a path leads. -/
def Disk.HasDirectory (disk : Disk) (path : String) : Prop :=
  ((Disk.system.isDirectory path).run disk).1 = true

/-- A dot leads to the directory that one is in. -/
theorem Disk.hasDirectory_dot {disk : Disk} {entries : List (String × FileTree)}
    (h : disk.root.find? disk.here = some (.directory entries)) : disk.HasDirectory "." := by
  have hbegin : disk.begin "." = (disk.here, ["."]) := by
    rw [begin, Path.pieces_dot]
    rfl
  have hstep : step disk.root disk.here "." = .ok disk.here := by
    rw [step, h]
    rfl
  have hlocate : disk.locate "." = .ok disk.here := by
    rw [locate, if_neg (by decide), hbegin]
    exact congrArg (Except.bind · pure) hstep
  have hfind : disk.find "." = .ok (.directory entries) := by
    rw [find, hlocate]
    dsimp only [bind, Except.bind]
    rw [h]
  simp only [HasDirectory, system, StateT.run_bind, StateT.run_get, pure_bind, hfind]
  rfl

namespace Engine

open BslLint.Path

/-! ### What is counted -/

/-- Whether a text begins with two dots and a slash. -/
def beginsWithReference : List Char → Bool
  | '.' :: '.' :: c :: _ => isSeparator c
  | _ => false

theorem parentReferences_cons_of_ne {c : Char} (hc : c ≠ '.') (cs : List Char) :
    parentReferences (c :: cs) = parentReferences cs := by
  rw [parentReferences]
  exact fun _ _ h _ ↦ hc h

theorem parentReferences_cons (c : Char) (cs : List Char) : parentReferences (c :: cs) =
    parentReferences cs + if beginsWithReference (c :: cs) then 1 else 0 := by
  -- After a reference the count goes on behind its two dots, and neither dot begins another one.
  by_cases h : ∃ s rest, c :: cs = '.' :: '.' :: s :: rest
  · obtain ⟨s, rest, heq⟩ := h
    obtain ⟨rfl, rfl⟩ := List.cons.inj heq
    rw [parentReferences, beginsWithReference, isSeparator]
    split
    next hs =>
      have hne := ne_dot_of_isSeparator hs
      have hdot : parentReferences ('.' :: s :: rest) = parentReferences (s :: rest) := by
        rw [parentReferences]
        exact fun _ _ _ h ↦ hne (List.cons.inj h).1
      rw [hdot, parentReferences_cons_of_ne hne]
    next => rfl
  · have hbegins : beginsWithReference (c :: cs) = false := by
      rw [beginsWithReference.eq_def]
      split
      next heq => exact absurd ⟨_, _, heq⟩ h
      next => rfl
    rw [hbegins, parentReferences]
    · rfl
    · intro s rest hc hcs
      exact h ⟨s, rest, by rw [hc, hcs]⟩

variable {cs : List Char}

theorem beginsWithReference_append (h : ∀ c ∈ cs, isSeparator c = false) {s : Char}
    (hs : isSeparator s = true) (rest : List Char) :
    beginsWithReference (cs ++ s :: rest) = (cs == twoDots) := by
  have hne := ne_dot_of_isSeparator hs
  rw [beginsWithReference.eq_def, Bool.eq_iff_iff, beq_iff_eq]
  split
  next c tail heq =>
    -- the separator is the third character, or there is one among the first two
    rcases cs with - | ⟨a, - | ⟨b, cs⟩⟩
    · exact absurd (List.cons.inj heq).1 hne
    · exact absurd (List.cons.inj (List.cons.inj heq).2).1 hne
    · simp only [List.cons_append, List.cons.injEq] at heq
      obtain ⟨rfl, rfl, heq⟩ := heq
      rcases cs with - | ⟨d, cs⟩
      · obtain ⟨rfl, -⟩ := List.cons.inj heq
        exact iff_of_true hs rfl
      · obtain ⟨rfl, -⟩ := List.cons.inj heq
        exact iff_of_false (by simpa using h d (by simp)) (by simp [twoDots])
  next hnone =>
    refine iff_of_false Bool.false_ne_true ?_
    rintro rfl
    exact hnone s rest rfl

theorem parentReferences_append (h : ∀ c ∈ cs, isSeparator c = false) {s : Char}
    (hs : isSeparator s = true) (rest : List Char) :
    parentReferences (cs ++ s :: rest) =
      parentReferences rest + if endsInTwoDots cs then 1 else 0 := by
  induction cs with
  | nil => exact parentReferences_cons_of_ne (ne_dot_of_isSeparator hs) rest
  | cons c cs ih =>
    have hbegins := beginsWithReference_append h hs rest
    rw [List.cons_append] at hbegins ⊢
    rw [parentReferences_cons, hbegins, ih fun d hd ↦ h d (List.mem_cons_of_mem c hd),
      endsInTwoDots_cons]
    by_cases heq : c :: cs = twoDots
    · obtain ⟨rfl, rfl⟩ := List.cons.inj heq
      rfl
    · rw [beq_false_of_ne heq]
      rfl

theorem parentReferences_of_forall (h : ∀ c ∈ cs, isSeparator c = false) :
    parentReferences cs = 0 := by
  fun_induction parentReferences cs with
  | case1 c rest hc ih => exact absurd hc (by simpa [isSeparator] using h c (by simp))
  | case2 c rest hc ih => exact ih fun d hd ↦ h d (List.mem_cons_of_mem _ hd)
  | case3 c rest _ ih => exact ih fun d hd ↦ h d (List.mem_cons_of_mem _ hd)
  | case4 => rfl

/-- **Counted are the components that end in two dots and have a slash behind them.** -/
theorem parentReferences_eq (cs : List Char) :
    parentReferences cs = levelsCounted (cs.splitOnP isSeparator) := by
  cases hfind : cs.find? isSeparator with
  | none =>
    have hall : ∀ c ∈ cs, isSeparator c = false := by simpa using List.find?_eq_none.1 hfind
    rw [parentReferences_of_forall hall, List.splitOnP_eq_singleton hall]
    rfl
  | some s =>
    obtain ⟨hs, us, rest, rfl, hus⟩ := List.find?_eq_some_iff_append.1 hfind
    replace hus : ∀ c ∈ us, isSeparator c = false := by simpa using hus
    have hlt : rest.length < (us ++ s :: rest).length := by
      rw [List.length_append, List.length_cons]
      omega
    rw [parentReferences_append hus hs, parentReferences_eq rest,
      List.splitOnP_append_cons_of_forall_mem hus s hs, levelsCounted, levelsCounted,
      List.dropLast_cons_of_ne_nil (List.splitOnP_ne_nil _ _), List.countP_cons]
termination_by cs.length

/-! ### What is refused -/

/-- The directory of the sources is refused, as it is too far outside of that of the project. -/
def Refuses (e : Engine) (disk : Disk) : Prop :=
  ((e.sourceDirectory Disk.system).run disk).1 = .error (.tooManyParents e.options.source)

variable {e : Engine} {disk : Disk}

/-- What is said about the directory of the sources in a project that exists. -/
theorem run_sourceDirectory (h : disk.HasDirectory e.options.workspace) :
    ((e.sourceDirectory Disk.system).run disk).1 =
      if 1 < levelsCounted (components e.options.source) then
        .error (.tooManyParents e.options.source)
      else if ((Disk.system.isDirectory
          (Path.join e.options.workspace e.options.source)).run disk).1 then
        .ok (Path.join e.options.workspace e.options.source)
      else .error (.noSource (Path.join e.options.workspace e.options.source)) := by
  obtain ⟨b, hworkspace⟩ := isDirectory_system disk e.options.workspace
  obtain ⟨b', hsource⟩ :=
    isDirectory_system disk (Path.join e.options.workspace e.options.source)
  rw [Disk.HasDirectory, hworkspace] at h
  obtain rfl : b = true := h
  rw [sourceDirectory, StateT.run_bind, hworkspace, pure_bind, components, ← parentReferences_eq,
    hsource]
  dsimp only
  rw [if_neg (by decide)]
  split
  next => rfl
  next =>
    rw [StateT.run_bind, hsource, pure_bind]
    cases b' <;> rfl

theorem refuses_iff (h : disk.HasDirectory e.options.workspace) :
    e.Refuses disk ↔ 1 < levelsCounted (components e.options.source) := by
  rw [Refuses, run_sourceDirectory h]
  split
  next hmany => exact iff_of_true rfl hmany
  next hfew =>
    refine iff_of_false ?_ hfew
    split <;> simp

/-- **A directory is refused if too much is counted in its path**, and that is a matter of levels,
but for two dots at the very end and for longer names that end in two dots. -/
theorem refused_by_count (e : Engine) (disk : Disk) (h : disk.HasDirectory e.options.workspace) :
    let cs := components e.options.source
    (e.Refuses disk ↔ 1 < levelsCounted cs) ∧
      (levelsCounted cs + if cs.getLast? = some twoDots then 1 else 0) =
        cs.count twoDots + cs.dropLast.countP (fun c ↦ endsInTwoDots c && c != twoDots) ∧
      (cs.getLast? ≠ some twoDots → (∀ c ∈ cs.dropLast, endsInTwoDots c = true → c = twoDots) →
        (e.Refuses disk ↔ 1 < cs.count twoDots)) := by
  intro cs
  have hcount := levelsCounted_add (show cs ≠ [] from List.splitOnP_ne_nil _ _)
  refine ⟨refuses_iff h, hcount, fun hlast hnames ↦ ?_⟩
  have hlonger : cs.dropLast.countP (fun c ↦ endsInTwoDots c && c != twoDots) = 0 := by
    rw [List.countP_eq_zero]
    intro c hc
    simpa using hnames c hc
  rw [if_neg hlast, hlonger] at hcount
  rw [refuses_iff h, show levelsCounted (components _) = cs.count twoDots from hcount]

/-- Two levels are refused, with slashes of both sorts and something behind them. -/
theorem two_levels_are_refused : ∃ (e : Engine) (disk : Disk),
    disk.HasDirectory e.options.workspace ∧ e.options.source = "../а/..\\b" ∧ e.Refuses disk := by
  have h : Disk.HasDirectory ⟨.empty, []⟩ "." := Disk.hasDirectory_dot rfl
  refine ⟨⟨{ source := "../а/..\\b" }, .standard, ⟨[]⟩⟩, ⟨.empty, []⟩, h, rfl, ?_⟩
  obtain ⟨-, -, hlevels⟩ := refused_by_count ⟨{ source := "../а/..\\b" }, .standard, ⟨[]⟩⟩ _ h
  exact (hlevels (by decide) (by decide)).2 (by decide)

/-- The directory two levels up is not refused if no slash follows, and one that is not above the
project is. -/
theorem two_levels_at_the_end_are_accepted :
    (∃ (e : Engine) (disk : Disk), disk.HasDirectory e.options.workspace ∧
      1 < (components e.options.source).count twoDots ∧ ¬ e.Refuses disk) ∧
    ∃ (e : Engine) (disk : Disk), disk.HasDirectory e.options.workspace ∧
      (components e.options.source).count twoDots = 0 ∧ e.Refuses disk := by
  let disk : Disk := ⟨.directory [("p", .directory [("q", .empty)])], ["p", "q"]⟩
  have h : disk.HasDirectory "." := Disk.hasDirectory_dot rfl
  constructor
  · refine ⟨⟨{ source := "../.." }, .standard, ⟨[]⟩⟩, disk, h, by decide, fun hrefused ↦ ?_⟩
    have hmany := (refuses_iff (e := ⟨{ source := "../.." }, .standard, ⟨[]⟩⟩) h).1 hrefused
    exact absurd hmany (by decide)
  · refine ⟨⟨{ source := "a../b../" }, .standard, ⟨[]⟩⟩, disk, h, by decide, ?_⟩
    exact (refuses_iff (e := ⟨{ source := "a../b../" }, .standard, ⟨[]⟩⟩) h).2 (by decide)

end Engine

end BslLint
