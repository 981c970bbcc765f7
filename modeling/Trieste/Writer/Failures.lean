import Trieste.Writer.Landing

namespace Trieste
set_option autoImplicit true

namespace Path

theorem base_names (p : Path) :
    p.base.names = if p.names.getLast? = some [] then p.names.dropLast else p.names := by
  rw [base]
  split <;> rfl

theorem parent_clean {p : Path} (h : [] ∉ p.base.names) : [] ∉ p.parent.base.names := by
  have hparent : [] ∉ p.parent.names := by
    rw [parent]
    rw [base_names] at h
    split at h
    · exact h
    · exact fun hm => h (List.dropLast_subset _ hm)
  rwa [base_of_not_mem hparent]

theorem join_clean {p : Path} (h : [] ∉ p.base.names) (text : List Char) :
    [] ∉ (p.join (parse text)).base.names := by
  have hparse := parse_base text
  generalize parse text = q at hparse
  rw [join]
  split
  · exact hparse
  · split
    · by_cases hbase : p.base.names = []
      · rw [if_pos hbase]
        exact List.not_mem_nil
      · simp only [if_neg hbase]
        rw [base_names, if_pos List.getLast?_concat, List.dropLast_concat]
        exact h
    · next hnames =>
      obtain ⟨init, last, hq⟩ : ∃ init last, q.names = init ++ [last] :=
        ⟨_, _, (List.dropLast_concat_getLast hnames).symm⟩
      rw [base_names, hq, List.getLast?_concat, List.dropLast_concat] at hparse
      rw [base_names]
      simp only [hq, ← List.append_assoc, List.getLast?_concat, List.dropLast_concat]
      split
      · next hlast =>
        rw [if_pos hlast] at hparse
        exact fun hm => (List.mem_append.1 hm).elim h hparse
      · next hlast =>
        rw [if_neg hlast] at hparse
        rw [List.append_assoc]
        exact fun hm => (List.mem_append.1 hm).elim h hparse

end Path

/-- What comes of the writing of a file. -/
inductive Outcome
  | stored
  | notOpened
  | thrown (message : String)
  deriving DecidableEq

namespace Writer
variable {C : Type} {fs : FileSystem} {render : WriteFile C} {d e : DestinationDef}
  {f : OutputFile C} {files : List (OutputFile C)}

def outcome (fs : FileSystem) (render : WriteFile C) (d : DestinationDef) (f : OutputFile C) :
    Outcome :=
  match (d.openAt fs (.parse f.path.toList)).2, (render f.contents).2 with
  | .error message, _ => .thrown message
  | .ok _, .error message => .thrown message
  | .ok true, .ok _ => .stored
  | .ok false, .ok _ => .notOpened

def failed (fs : FileSystem) (render : WriteFile C) :
    DestinationDef → List (OutputFile C) → List (OutputFile C)
  | _, [] => []
  | d, f :: files =>
    if outcome fs render d f = .stored then failed fs render (writeFile fs render d f).1 files
    else f :: failed fs render (writeFile fs render d f).1 files

def succeeded (fs : FileSystem) (render : WriteFile C) :
    DestinationDef → List (OutputFile C) → List (OutputFile C)
  | _, [] => []
  | d, f :: files =>
    if outcome fs render d f = .stored then
      f :: succeeded fs render (writeFile fs render d f).1 files
    else succeeded fs render (writeFile fs render d f).1 files

theorem writeFile_error : (writeFile fs render d f).2 = match outcome fs render d f with
    | .thrown message => some message
    | _ => none := by
  rw [writeFile, outcome]
  generalize d.openAt fs (.parse f.path.toList) = opened
  generalize render f.contents = rendered
  obtain ⟨d', opened⟩ := opened
  obtain ⟨text, rendered⟩ := rendered
  cases opened with
  | error message => rfl
  | ok isOpen =>
    cases rendered with
    | error message => rfl
    | ok written => cases isOpen <;> rfl

theorem errors_cons (hout : outcome fs render d f = .thrown message) :
    errors fs render d (f :: files) =
      ⟨message, f⟩ :: errors fs render (writeFile fs render d f).1 files := by
  have herror : (writeFile fs render d f).2 = some message := by rw [writeFile_error, hout]
  rw [errors]
  generalize writeFile fs render d f = result at herror
  obtain ⟨d', error⟩ := result
  cases herror
  rfl

theorem errors_skip (hout : ∀ message, outcome fs render d f ≠ .thrown message) :
    errors fs render d (f :: files) = errors fs render (writeFile fs render d f).1 files := by
  have herror : (writeFile fs render d f).2 = none := by
    rw [writeFile_error]
    cases h : outcome fs render d f with
    | stored => rfl
    | notOpened => rfl
    | thrown message => exact absurd h (hout message)
  rw [errors]
  generalize writeFile fs render d f = result at herror
  obtain ⟨d', error⟩ := result
  cases herror
  rfl

/-- The files with the destinations that they meet. -/
def visited (fs : FileSystem) (render : WriteFile C) :
    DestinationDef → List (OutputFile C) → List (DestinationDef × OutputFile C)
  | _, [] => []
  | d, f :: files => (d, f) :: visited fs render (writeFile fs render d f).1 files

theorem errors_sublist (d : DestinationDef) (files : List (OutputFile C)) :
    ((errors fs render d files).map WriteError.ast).Sublist (failed fs render d files) := by
  induction files generalizing d with
  | nil => exact .slnil
  | cons f files ih =>
    cases hout : outcome fs render d f with
    | stored =>
      rw [errors_skip (by rw [hout]; exact nofun), failed, if_pos hout]
      exact ih _
    | notOpened =>
      rw [errors_skip (by rw [hout]; exact nofun), failed, if_neg (by rw [hout]; exact nofun)]
      exact (ih _).cons f
    | thrown message =>
      rw [errors_cons hout, failed, if_neg (by rw [hout]; exact nofun)]
      exact (ih _).cons_cons f

theorem errors_failed (d : DestinationDef) (files : List (OutputFile C)) :
    (errors fs render d files).map WriteError.ast = failed fs render d files ↔
      ∀ v ∈ visited fs render d files, outcome fs render v.1 v.2 ≠ .notOpened := by
  induction files generalizing d with
  | nil => exact iff_of_true rfl nofun
  | cons f files ih =>
    rw [visited, List.forall_mem_cons]
    cases hout : outcome fs render d f with
    | stored =>
      rw [errors_skip (by rw [hout]; exact nofun), failed, if_pos hout, ih, and_iff_right nofun]
    | notOpened =>
      rw [errors_skip (by rw [hout]; exact nofun), failed, if_neg (by rw [hout]; exact nofun)]
      apply iff_of_false
      · intro heq
        have hsub : (errors fs render (writeFile fs render d f).1 files |>.map WriteError.ast).Sublist
          (failed fs render (writeFile fs render d f).1 files) := errors_sublist _ files
        have hle := hsub.length_le
        rw [heq] at hle
        exact Nat.not_succ_le_self _ hle
      · exact fun h => h.1 rfl
    | thrown message =>
      rw [errors_cons hout, failed, if_neg (by rw [hout]; exact nofun), List.map_cons,
        List.cons.injEq, and_iff_right rfl, ih, and_iff_right nofun]

/-- A destination whose path can be left again, with nothing in the stream of a synthetic one while
no file is open. -/
structure Tidy (d : DestinationDef) : Prop where
  clean : [] ∉ d.path.base.names
  buffer : d.mode = .synthetic → d.isOpen = false → d.sstream = ""

theorem Tidy.close (h : Tidy d) : Tidy d.close := by
  cases ho : d.isOpen with
  | false => rwa [DestinationDef.close_of_closed ho]
  | true =>
    rw [DestinationDef.close_of_open ho]
    exact ⟨Path.parent_clean h.clean, fun hm _ => if_pos hm⟩

theorem close_mode (d : DestinationDef) : d.close.mode = d.mode := by
  cases ho : d.isOpen with
  | false => rw [DestinationDef.close_of_closed ho]
  | true => rw [DestinationDef.close_of_open ho]

theorem Tidy.openAt (h : Tidy d) (text : List Char) : Tidy (d.openAt fs (.parse text)).1 := by
  have hclose := h.close
  have hclean := Path.join_clean hclose.clean text
  rw [DestinationDef.openAt]
  cases hm : d.close.mode with
  | fileSystem =>
    simp only
    split
    · exact ⟨hclean, fun hs => by cases hs⟩
    · split
      · exact ⟨hclean, fun hs => by cases hs⟩
      · exact ⟨hclean, fun hs => by cases hs⟩
  | console => exact ⟨hclean, fun hs => by cases hs⟩
  | synthetic => exact ⟨hclean, fun _ hs => by cases hs⟩

theorem openAt_open (hm : d.mode = .synthetic) (path : Path) : d.openAt fs path =
    ({ d.close with path := d.close.path.join path, isOpen := true }, .ok true) := by
  have hmode : d.close.mode = .synthetic := (close_mode d).trans hm
  rw [DestinationDef.openAt]
  simp only [hmode]

theorem openAt_mode (d : DestinationDef) (path : Path) : (d.openAt fs path).1.mode = d.mode := by
  rw [DestinationDef.openAt, ← close_mode d]
  cases hm : d.close.mode with
  | fileSystem =>
    simp only
    split
    · rfl
    · split <;> rfl
  | console => rfl
  | synthetic => rfl

theorem Tidy.write (h : Tidy d) (hopen : d.mode = .synthetic → d.isOpen = true) (text : String) :
    Tidy (d.write text) := by
  rw [DestinationDef.write]
  cases hm : d.mode with
  | fileSystem =>
    cases d.fstream with
    | none => exact h
    | some path => exact ⟨h.clean, fun hs => by cases hs⟩
  | console => exact h
  | synthetic =>
    refine ⟨h.clean, fun _ hclosed => ?_⟩
    exact Bool.noConfusion ((hopen hm).symm.trans hclosed)

theorem Tidy.writeFile (h : Tidy d) (f : OutputFile C) : Tidy (writeFile fs render d f).1 := by
  have hopened : Tidy (d.openAt fs (.parse f.path.toList)).1 := h.openAt f.path.toList
  have hopen : (d.openAt fs (.parse f.path.toList)).1.mode = .synthetic →
      (d.openAt fs (.parse f.path.toList)).1.isOpen = true := by
    intro hm
    rw [openAt_mode] at hm
    rw [openAt_open hm]
  rw [Writer.writeFile]
  generalize d.openAt fs (.parse f.path.toList) = opened at hopened hopen
  generalize render f.contents = rendered
  obtain ⟨d', opened⟩ := opened
  obtain ⟨text, rendered⟩ := rendered
  cases opened with
  | error message => exact hopened
  | ok isOpen =>
    cases rendered with
    | error message => exact hopened.write hopen text
    | ok written => exact (hopened.write hopen text).close

theorem Tidy.run (h : Tidy d) (writes : List (Write C)) : Tidy (Write.run d writes) := by
  have hfiles (fs : FileSystem) (render : WriteFile C) (d : DestinationDef) (h : Tidy d)
      (files : List (OutputFile C)) : Tidy (writeFiles fs render d files) := by
    induction files generalizing d with
    | nil => exact h
    | cons f files ih => exact ih _ (h.writeFile f)
  induction writes generalizing d with
  | nil => exact h
  | cons w writes ih => exact ih (hfiles w.fs w.render d h w.ast.visits)

/-- Two synthetic destinations that hold the same, of which one may still have a file open in which
nothing is written. -/
structure Same (d e : DestinationDef) : Prop where
  mode : d.mode = .synthetic
  mode' : e.mode = .synthetic
  path : d.close.path.base = e.close.path.base
  clean : [] ∉ d.close.path.base.names
  files : d.files = e.files
  settled : d.close.files = d.files ∧ e.close.files = e.files
  buffer : d.close.sstream = "" ∧ e.close.sstream = ""

theorem writeFile_open (hm : d.mode = .synthetic) : writeFile fs render d f =
    match (render f.contents).2 with
    | .error message => ({ d.close with
        path := f.target d.close.path, isOpen := true
        sstream := d.close.sstream ++ (render f.contents).1 }, some message)
    | .ok _ => (({ d.close with
        path := f.target d.close.path, isOpen := true
        sstream := d.close.sstream ++ (render f.contents).1 } : DestinationDef).close, none) := by
  have hmode : d.close.mode = .synthetic := (close_mode d).trans hm
  rw [writeFile, openAt_open hm]
  generalize render f.contents = rendered
  obtain ⟨text, rendered⟩ := rendered
  cases rendered with
  | error message => simp only [DestinationDef.write, hmode]; rfl
  | ok written => simp only [DestinationDef.write, hmode]; rfl

theorem outcome_open (hm : d.mode = .synthetic) : outcome fs render d f =
    match (render f.contents).2 with
    | .error message => .thrown message
    | .ok _ => .stored := by
  rw [outcome, openAt_open hm]
  cases (render f.contents).2 <;> rfl

theorem Same.target (h : Same d e) (f : OutputFile C) :
    f.target d.close.path = f.target e.close.path :=
  Path.join_congr h.path _

theorem close_opened (hm : d.mode = .synthetic) (path : Path) (text : String) :
    ({ d with path, isOpen := true, sstream := text } : DestinationDef).close =
      { d with
        path := path.parent, isOpen := false, sstream := ""
        files := if text = "" then d.files else Function.update d.files path (some text) } := by
  rw [DestinationDef.close_of_open rfl]
  by_cases htext : text = ""
  · simp only [hm, htext, if_true, ne_eq, not_true, and_false, if_false, reduceCtorEq]
  · simp only [hm, htext, if_true, ne_eq, not_false_iff, and_self, if_false, reduceCtorEq]

/-- A file that is stored is stored in both. -/
theorem Same.stored (h : Same d e) (hrender : (render f.contents).2 = .ok written) :
    Same (writeFile fs render d f).1 (writeFile fs render e f).1 := by
  have hmode : d.close.mode = .synthetic := (close_mode d).trans h.mode
  have hmode' : e.close.mode = .synthetic := (close_mode e).trans h.mode'
  have hfiles : d.close.files = e.close.files := by rw [h.settled.1, h.settled.2, h.files]
  have hclean : [] ∉ (f.target d.close.path).parent.base.names :=
    Path.parent_clean (Path.join_clean h.clean _)
  rw [writeFile_open h.mode, writeFile_open h.mode', hrender]
  simp only [close_opened hmode, close_opened hmode']
  rw [h.buffer.1, h.buffer.2, ← h.target f, hfiles]
  constructor
  · exact hmode
  · exact hmode'
  · rfl
  · exact hclean
  · rfl
  · exact ⟨rfl, rfl⟩
  · exact ⟨rfl, rfl⟩

/-- A file with a single name that has not been written to leaves nothing behind. -/
theorem Same.thrown (h : Same d e) (hrender : (render f.contents).2 = .error message)
    (htext : (render f.contents).1 = "") (hname : '/' ∉ f.path.toList) :
    Same (writeFile fs render d f).1 e := by
  rw [writeFile_open h.mode, hrender]
  have hmode : d.close.mode = .synthetic := (close_mode d).trans h.mode
  have hparent : (f.target d.close.path).parent = d.close.path.base := Path.parent_join _ hname
  have hbase : d.close.path.base.base = d.close.path.base := Path.base_of_not_mem h.clean
  simp only [htext, h.buffer.1, String.append_empty]
  constructor
  · exact hmode
  · exact h.mode'
  · rw [close_opened hmode, hparent, hbase]
    exact h.path
  · rw [close_opened hmode, hparent, hbase]
    exact h.clean
  · exact h.settled.1.trans h.files
  · rw [close_opened hmode]
    exact ⟨rfl, h.settled.2⟩
  · rw [close_opened hmode]
    exact ⟨rfl, h.buffer.2⟩

/-- What is written before an exception is not stored while the file is open. -/
theorem Same.last (h : Same d e) (hrender : (render f.contents).2 = .error message) :
    (writeFile fs render d f).1.files = e.files := by
  rw [writeFile_open h.mode, hrender]
  exact h.settled.1.trans h.files

theorem Same.run (h : Same d e) (hcontained : ∀ before f after, files = before ++ f :: after →
      outcome fs render (writeFiles fs render d before) f ≠ .stored →
        after = [] ∨ (render f.contents).1 = "" ∧ '/' ∉ f.path.toList) :
    (writeFiles fs render d files).files =
      (writeFiles fs render e (succeeded fs render d files)).files := by
  induction files generalizing d e with
  | nil => exact h.files
  | cons f files ih =>
    have hrest : ∀ before g after, files = before ++ g :: after →
        outcome fs render (writeFiles fs render (writeFile fs render d f).1 before) g ≠ .stored →
          after = [] ∨ (render g.contents).1 = "" ∧ '/' ∉ g.path.toList := by
      intro before g after hsplit hout
      exact hcontained (f :: before) g after (congrArg (f :: ·) hsplit) hout
    cases hrender : (render f.contents).2 with
    | ok written =>
      have hout : outcome fs render d f = .stored := by rw [outcome_open h.mode, hrender]
      rw [succeeded, if_pos hout]
      exact ih (h.stored hrender) hrest
    | error message =>
      have hout : outcome fs render d f ≠ .stored := by
        rw [outcome_open h.mode, hrender]
        exact nofun
      rw [succeeded, if_neg hout]
      rcases hcontained [] f files rfl hout with rfl | ⟨htext, hname⟩
      · exact h.last hrender
      · exact ih (h.thrown hrender htext hname) hrest

def Destination (d : DestinationDef) : Prop :=
  ∃ (C : Type) (d₀ : DestinationDef) (writes : List (Write C)),
    (d₀ = .synthetic ∨ d₀ = .console ∨ ∃ path disk, d₀ = .dir path disk) ∧ d = Write.run d₀ writes

theorem Destination.tidy (h : Destination d) : Tidy d := by
  obtain ⟨C, d₀, writes, hd, rfl⟩ := h
  apply Tidy.run
  obtain rfl | rfl | ⟨path, disk, rfl⟩ := hd
  · exact ⟨Path.parse_base _, fun _ _ => rfl⟩
  · exact ⟨Path.parse_base _, nofun⟩
  · exact ⟨Path.parse_base _, nofun⟩

theorem Same.refl (h : Tidy d) (hm : d.mode = .synthetic) (ho : d.isOpen = false) : Same d d := {
  mode := hm
  mode' := hm
  path := rfl
  clean := h.close.clean
  files := rfl
  settled := by rw [DestinationDef.close_of_closed ho]; exact ⟨rfl, rfl⟩
  buffer := by
    rw [DestinationDef.close_of_closed ho]
    exact ⟨h.buffer hm ho, h.buffer hm ho⟩ }

theorem succeeded_all (h : ∀ before f after, files = before ++ f :: after →
    outcome fs render (writeFiles fs render d before) f = .stored) :
    succeeded fs render d files = files := by
  induction files generalizing d with
  | nil => rfl
  | cons f files ih =>
    have hout : outcome fs render d f = .stored := h [] f files rfl
    rw [succeeded, if_pos hout, ih]
    exact fun before g after hsplit => h (f :: before) g after (congrArg (f :: ·) hsplit)

/-- There is an error for each file that fails exactly where none fails to open without an exception,
and the others are stored as without them where exceptions are met in synthetic destinations, with
the last file or with a single name and nothing written. -/
theorem failures_isolated (fs : FileSystem) (render : WriteFile C) (d : DestinationDef)
    (ast : OutputNode C) (hd : Destination d) :
    (((result fs render d ast).ok = true ↔ failed fs render d ast.visits = []) ∧
        (result fs render d ast).errors.map WriteError.ast = failed fs render d ast.visits ↔
      ∀ v ∈ visited fs render d ast.visits, outcome fs render v.1 v.2 ≠ .notOpened) ∧
    ((∀ before f after, ast.visits = before ++ f :: after →
        outcome fs render (writeFiles fs render d before) f ≠ .stored →
        d.mode = .synthetic ∧ d.isOpen = false ∧
          (after = [] ∨ (render f.contents).1 = "" ∧ '/' ∉ f.path.toList)) →
      (write fs render d ast).files =
        (writeFiles fs render d (succeeded fs render d ast.visits)).files) := by
  constructor
  · rw [← errors_failed]
    constructor
    · exact And.right
    · intro heq
      refine ⟨?_, heq⟩
      rw [← heq, result, List.isEmpty_iff, List.map_eq_nil_iff]
  · intro h
    by_cases hfail : ∃ before f after, ast.visits = before ++ f :: after ∧
        outcome fs render (writeFiles fs render d before) f ≠ .stored
    · obtain ⟨before, f, after, hsplit, hout⟩ := hfail
      obtain ⟨hm, ho, -⟩ := h before f after hsplit hout
      exact (Same.refl hd.tidy hm ho).run fun before f after hsplit hout =>
        (h before f after hsplit hout).2.2
    · rw [succeeded_all fun before f after hsplit => ?_, write]
      by_contra hout
      exact hfail ⟨before, f, after, hsplit, hout⟩

/-- A `WriteFile` that throws where it has written a certain text. -/
def throwing (text : String) : String × Except String Bool :=
  if text = "half" then (text, .error "no more") else (text, .ok true)

/-- The second of two files throws. -/
theorem failures_isolated_last : (write .granting throwing .synthetic
      (.top [.file ⟨"b", "half"⟩, .file ⟨"a", "1"⟩])).files =
    (writeFiles .granting throwing .synthetic [⟨"a", "1"⟩]).files := by
  apply (failures_isolated .granting throwing .synthetic
    (.top [.file ⟨"b", "half"⟩, .file ⟨"a", "1"⟩]) ⟨String, _, [], .inl rfl, rfl⟩).2
  intro before f after hsplit hout
  rcases before with _ | ⟨g, _ | ⟨g', before⟩⟩
  · obtain ⟨rfl, -⟩ := List.cons.inj hsplit
    exact absurd (by decide) hout
  · obtain ⟨-, hrest⟩ := List.cons.inj hsplit
    exact ⟨rfl, rfl, .inl (List.cons.inj hrest).2.symm⟩
  · obtain ⟨-, hrest⟩ := List.cons.inj hsplit
    exact absurd (congrArg List.length (List.cons.inj hrest).2) (by simp)

def FileSystem.refusing (path : String) : FileSystem :=
  { createDirectories := fun _ => true, openFile := fun p => p ≠ .parse path.toList }

/-- What was written before an exception is stored with the next file, and a file that is not opened
is not reported and takes the next one along. -/
theorem failures_spread :
    (write .granting throwing .synthetic
      (.top [.file ⟨"b", "1"⟩, .file ⟨"a", "half"⟩])).files (.parse "./a".toList) = some "half" ∧
    (result (FileSystem.refusing "out/a") throwing (.dir "out" fun _ => none)
      (.top [.file ⟨"b", "1"⟩, .file ⟨"a", "2"⟩])).errors = [] ∧
    (write (FileSystem.refusing "out/a") throwing (.dir "out" fun _ => none)
      (.top [.file ⟨"b", "1"⟩, .file ⟨"a", "2"⟩])).files (.parse "out/a/b".toList) = some "1" := by
  refine ⟨by decide, ?_, by decide⟩
  rfl

end Writer

end Trieste
