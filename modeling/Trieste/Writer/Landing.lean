import Trieste.Writer

namespace Trieste
set_option autoImplicit true

namespace Path

theorem parse_plain {text : List Char} (h : '/' ∉ text) :
    parse text = { names := if text = [] then [] else [text] } := by
  have hhead : text.head? ≠ some '/' := fun hh => h (List.mem_of_mem_head? hh)
  have hlast : text.getLast? ≠ some '/' := fun hl => h (List.mem_of_getLast? hl)
  cases text with
  | nil => rfl
  | cons c text =>
    have hc : c ≠ '/' := fun hc => hhead (congrArg some hc)
    simp [parse, List.splitOn_eq_singleton h, hlast, hc]

theorem parse_base (text : List Char) : [] ∉ (parse text).base.names := by
  have hnames : [] ∉ (text.splitOn '/').filter (· ≠ []) := by simp
  simp only [parse, base]
  split
  · rename_i hsep
    rw [List.getLast?_concat, if_pos rfl, List.dropLast_concat]
    exact hnames
  · split
    · exact fun hm => hnames (List.dropLast_subset _ hm)
    · exact hnames

theorem base_of_not_mem {p : Path} (h : [] ∉ p.names) : p.base = p := by
  rw [base, if_neg]
  exact fun hl => h (List.mem_of_getLast? hl)

@[simp] theorem base_absolute (p : Path) : p.base.absolute = p.absolute := by
  rw [base]
  split <;> rfl

theorem join_congr {p q : Path} (h : p.base = q.base) (r : Path) : p.join r = q.join r := by
  have habs : p.absolute = q.absolute := by rw [← base_absolute, h, base_absolute]
  simp only [join, h, habs]

theorem parent_join (p : Path) {text : List Char} (h : '/' ∉ text) :
    (p.join (parse text)).parent = p.base := by
  have hparent (names : List (List Char)) (hn : names.dropLast = p.base.names) :
      ({ p with names := names } : Path).parent = p.base := by
    rw [parent, hn, ← base_absolute p]
  rw [parse_plain h, join, if_neg Bool.false_ne_true]
  by_cases ht : text = []
  · simp only [ht, if_true]
    apply hparent
    by_cases hn : p.base.names = []
    · simp only [hn, if_true, List.dropLast_nil]
    · rw [if_neg hn, List.dropLast_concat]
  · simp only [ht, if_false, List.cons_ne_nil]
    exact hparent _ List.dropLast_concat

end Path

def OutputFile.target (f : OutputFile C) (root : Path) : Path := root.join (.parse f.path.toList)

/-- The writing of a file, with the file system and the `WriteFile` at that time. -/
structure Job (C : Type) where
  fs : FileSystem
  render : WriteFile C
  file : OutputFile C

namespace Job

def target (j : Job C) (root : Path) : Path := j.file.target root

def text (j : Job C) : String := (j.render j.file.contents).1

/-- The `WriteFile` returns. -/
def Returns (j : Job C) : Prop := ∃ ok, (j.render j.file.contents).2 = .ok ok

/-- The name has no separator, the file system grants what is asked of it, and a synthetic
destination gets a text that is not empty. -/
structure Plain (j : Job C) (mode : Mode) (root : Path) : Prop where
  name : '/' ∉ j.file.path.toList
  directory : mode = .fileSystem → root.base.isEmpty = false → j.fs.createDirectories root.base
  file : mode = .fileSystem → j.fs.openFile (j.target root)
  text : mode = .synthetic → j.text ≠ ""

end Job

namespace DestinationDef

/-- The path is the root while no file is open, and a path right under it while one is. -/
structure Ready (root : Path) (mode : Mode) (d : DestinationDef) : Prop where
  sameMode : d.mode = mode
  closed : d.isOpen = false → d.path.base = root.base
  opened : d.isOpen = true → d.path.parent = root.base
  buffer : mode = .synthetic → d.isOpen = false → d.sstream = ""

def Clear (q : Path) (d : DestinationDef) : Prop := d.isOpen = true → d.path ≠ q

/-- A file is open and holds the text, or its stream does. -/
structure Writing (target : Path) (text : String) (d : DestinationDef) : Prop where
  isOpen : d.isOpen = true
  path : d.path = target
  file : d.mode = .fileSystem → d.fstream = some target ∧ d.files target = some text
  buffer : d.mode = .synthetic → d.sstream = text

variable {root target q : Path} {mode : Mode} {d : DestinationDef} {text : String} {j : Job C}

theorem close_of_closed (h : d.isOpen = false) : d.close = d := by
  rw [close, h, if_neg Bool.false_ne_true]

theorem close_of_open (h : d.isOpen = true) : d.close =
    { d with
      path := d.path.parent
      isOpen := false
      fstream := if d.mode = .fileSystem then none else d.fstream
      sstream := if d.mode = .synthetic then "" else d.sstream
      files := if d.mode = .synthetic ∧ d.sstream ≠ "" then
        Function.update d.files d.path (some d.sstream) else d.files } := by
  rw [close, if_pos h]
  cases hm : d.mode with
  | fileSystem => simp
  | console => simp [hm]
  | synthetic =>
    by_cases ht : d.sstream = ""
    · simp [hm, ht]
    · simp [ht]

@[simp] theorem close_isOpen (d : DestinationDef) : d.close.isOpen = false := by
  cases h : d.isOpen with
  | false => rw [close_of_closed h, h]
  | true => rw [close_of_open h]

theorem close_files (h : d.Clear q) : d.close.files q = d.files q := by
  cases ho : d.isOpen with
  | false => rw [close_of_closed ho]
  | true =>
    rw [close_of_open ho]
    simp only
    split
    · exact Function.update_of_ne (h ho).symm _ _
    · rfl

theorem Ready.close (h : d.Ready root mode) (hroot : [] ∉ root.base.names) :
    d.close.Ready root mode := by
  cases ho : d.isOpen with
  | false => rwa [close_of_closed ho]
  | true =>
    rw [close_of_open ho]
    exact {
      sameMode := h.sameMode
      closed := fun _ => by rw [h.opened ho, Path.base_of_not_mem hroot]
      opened := fun hf => absurd hf Bool.false_ne_true
      buffer := fun hm _ => if_pos (h.sameMode.trans hm) }

/-- A file whose writing is over has the text. -/
theorem Writing.close (h : d.Writing target text) (hconsole : d.mode ≠ .console)
    (htext : d.mode = .synthetic → text ≠ "") : d.close.files target = some text := by
  rw [close_of_open h.isOpen]
  cases hm : d.mode with
  | fileSystem => simp [(h.file hm).2]
  | console => exact absurd hm hconsole
  | synthetic => simp [h.buffer hm, htext hm, h.path]

theorem write_file (hm : d.mode = .fileSystem) (hf : d.fstream = some q) (text : String) :
    d.write text =
      { d with files := Function.update d.files q (some ((d.files q).getD "" ++ text)) } := by
  rw [write, hm]
  simp only [hf]

theorem write_console (hm : d.mode = .console) (text : String) : d.write text = d := by
  rw [write, hm]

theorem write_synthetic (hm : d.mode = .synthetic) (text : String) :
    d.write text = { d with sstream := d.sstream ++ text } := by
  rw [write, hm]

theorem Writing.write (h : d.Writing target text) (more : String) :
    (d.write more).Writing target (text ++ more) := by
  cases hm : d.mode with
  | fileSystem =>
    rw [write_file hm (h.file hm).1]
    exact {
      isOpen := h.isOpen
      path := h.path
      file := fun _ => ⟨(h.file hm).1, by simp [(h.file hm).2]⟩
      buffer := fun hs => absurd (hm.symm.trans hs) nofun }
  | console =>
    rw [write_console hm]
    exact {
      isOpen := h.isOpen
      path := h.path
      file := fun hf => absurd (hm.symm.trans hf) nofun
      buffer := fun hs => absurd (hm.symm.trans hs) nofun }
  | synthetic =>
    rw [write_synthetic hm]
    exact {
      isOpen := h.isOpen
      path := h.path
      file := fun hf => absurd (hm.symm.trans hf) nofun
      buffer := fun _ => congrArg (· ++ more) (h.buffer hm) }

theorem Writing.write_files (h : d.Writing target text) (more : String) (hq : q ≠ target) :
    (d.write more).files q = d.files q := by
  cases hm : d.mode with
  | fileSystem =>
    rw [write_file hm (h.file hm).1]
    exact Function.update_of_ne hq _ _
  | console => rw [write_console hm]
  | synthetic => rw [write_synthetic hm]

theorem Writing.write_mode (h : d.Writing target text) (more : String) :
    (d.write more).mode = d.mode := by
  cases hm : d.mode with
  | fileSystem => rw [write_file hm (h.file hm).1, hm]
  | console => rw [write_console hm, hm]
  | synthetic => rw [write_synthetic hm, hm]

/-- The opening of a plain path from the root. -/
theorem Ready.openAt (h : d.Ready root mode) (hroot : [] ∉ root.base.names)
    (hj : j.Plain mode root) : ∃ d', d.openAt j.fs (.parse j.file.path.toList) = (d', .ok true) ∧ d'.mode = mode ∧
      d'.Writing (j.target root) "" ∧ ∀ q ≠ j.target root, d'.files q = d.close.files q := by
  have hc := h.close hroot
  have htarget : d.close.path.join (.parse j.file.path.toList) = j.target root :=
    Path.join_congr (hc.closed (close_isOpen d)) _
  have hparent : (j.target root).parent = root.base := Path.parent_join root hj.name
  rw [DestinationDef.openAt, htarget]
  cases mode with
  | fileSystem =>
    have hdir : (!root.base.isEmpty && !j.fs.createDirectories root.base) = false := by
      cases he : root.base.isEmpty with
      | true => rfl
      | false => simp [hj.directory rfl he]
    simp only [hc.sameMode, hparent, hdir, Bool.false_eq_true, if_false, hj.file rfl, if_true]
    refine ⟨_, rfl, rfl, ⟨rfl, rfl, fun _ => ⟨rfl, Function.update_self _ _ _⟩, nofun⟩, ?_⟩
    intro q hq
    exact Function.update_of_ne hq _ _
  | console =>
    simp only [hc.sameMode]
    exact ⟨_, rfl, rfl, ⟨rfl, rfl, nofun, nofun⟩, fun q _ => rfl⟩
  | synthetic =>
    simp only [hc.sameMode]
    exact ⟨_, rfl, rfl, ⟨rfl, rfl, nofun, fun _ => hc.buffer rfl (close_isOpen d)⟩, fun q _ => rfl⟩

theorem Writing.ready (h : d.Writing target text) (hm : d.mode = mode)
    (ht : target.parent = root.base) : d.Ready root mode := {
  sameMode := hm
  closed := fun hc => absurd (hc.symm.trans h.isOpen) Bool.false_ne_true
  opened := fun _ => h.path ▸ ht
  buffer := fun _ hc => absurd (hc.symm.trans h.isOpen) Bool.false_ne_true }

end DestinationDef

namespace Job
open DestinationDef
variable {root q : Path} {mode : Mode} {d : DestinationDef} {j : Job C}

def writeFile (d : DestinationDef) (j : Job C) : DestinationDef :=
  (Writer.writeFile j.fs j.render d j.file).1

theorem writeFile_writing (h : d.Ready root mode) (hroot : [] ∉ root.base.names)
    (hj : j.Plain mode root) : ∃ d', d'.mode = mode ∧ d'.Writing (j.target root) j.text ∧
      (∀ q ≠ j.target root, d'.files q = d.close.files q) ∧
      (j.Returns → j.writeFile d = d'.close) ∧ (¬ j.Returns → j.writeFile d = d') := by
  obtain ⟨d', hopen, hm, hw, hfiles⟩ := h.openAt hroot hj
  have htext : "" ++ j.text = j.text := String.empty_append
  refine ⟨d'.write j.text, (hw.write_mode _).trans hm, htext ▸ hw.write j.text, ?_, ?_, ?_⟩
  · intro q hq
    rw [hw.write_files j.text hq, hfiles q hq]
  · intro hr
    obtain ⟨ok, hok⟩ := hr
    have hrender : j.render j.file.contents = (j.text, .ok ok) := Prod.ext rfl hok
    simp only [writeFile, Writer.writeFile, hopen, hrender]
  · intro hr
    cases hok : (j.render j.file.contents).2 with
    | ok ok => exact absurd ⟨ok, hok⟩ hr
    | error message =>
      have hrender : j.render j.file.contents = (j.text, .error message) := Prod.ext rfl hok
      simp only [writeFile, Writer.writeFile, hopen, hrender]

theorem writeFile_ready (h : d.Ready root mode) (hroot : [] ∉ root.base.names)
    (hj : j.Plain mode root) : (j.writeFile d).Ready root mode := by
  obtain ⟨d', hm, hw, -, hret, hthrow⟩ := writeFile_writing h hroot hj
  have hready := hw.ready hm (Path.parent_join root hj.name)
  by_cases hr : j.Returns
  · rw [hret hr]
    exact hready.close hroot
  · rwa [hthrow hr]

theorem writeFile_files (h : d.Ready root mode) (hroot : [] ∉ root.base.names)
    (hj : j.Plain mode root) (hq : q ≠ j.target root) (hc : d.Clear q) :
    (j.writeFile d).files q = d.files q ∧ (j.writeFile d).Clear q := by
  obtain ⟨d', hm, hw, hfiles, hret, hthrow⟩ := writeFile_writing h hroot hj
  have hclear : d'.Clear q := fun _ => hw.path ▸ hq.symm
  have hd' : d'.files q = d.files q := (hfiles q hq).trans (close_files hc)
  by_cases hr : j.Returns
  · rw [hret hr]
    exact ⟨(close_files hclear).trans hd',
      fun ho => absurd ((close_isOpen d').symm.trans ho) Bool.false_ne_true⟩
  · rw [hthrow hr]
    exact ⟨hd', hclear⟩

theorem writeFile_stored (h : d.Ready root mode) (hroot : [] ∉ root.base.names)
    (hmode : mode ≠ .console) (hj : j.Plain mode root) (hr : j.Returns) :
    (j.writeFile d).isOpen = false ∧ (j.writeFile d).files (j.target root) = some j.text := by
  obtain ⟨d', hm, hw, -, hret, -⟩ := writeFile_writing h hroot hj
  rw [hret hr]
  exact ⟨close_isOpen d', hw.close (hm ▸ hmode) fun hs => hj.text (hm ▸ hs)⟩

/-- The destination after the files are written one after the other. -/
def run (d : DestinationDef) (jobs : List (Job C)) : DestinationDef := jobs.foldl writeFile d

theorem run_append (d : DestinationDef) (before after : List (Job C)) :
    run d (before ++ after) = run (run d before) after := List.foldl_append

theorem run_ready (h : d.Ready root mode) (hroot : [] ∉ root.base.names) {jobs : List (Job C)}
    (hjobs : ∀ j ∈ jobs, j.Plain mode root) : (run d jobs).Ready root mode := by
  induction jobs generalizing d with
  | nil => exact h
  | cons j jobs ih =>
    rw [List.forall_mem_cons] at hjobs
    exact ih (writeFile_ready h hroot hjobs.1) hjobs.2

theorem run_files (h : d.Ready root mode) (hroot : [] ∉ root.base.names) {jobs : List (Job C)}
    (hjobs : ∀ j ∈ jobs, j.Plain mode root) (hq : ∀ j ∈ jobs, j.target root ≠ q) (hc : d.Clear q) :
    (run d jobs).files q = d.files q := by
  induction jobs generalizing d with
  | nil => rfl
  | cons j jobs ih =>
    rw [List.forall_mem_cons] at hjobs hq
    obtain ⟨hfiles, hclear⟩ := writeFile_files h hroot hjobs.1 hq.1.symm hc
    rw [← hfiles]
    exact ih (writeFile_ready h hroot hjobs.1) hjobs.2 hq.2 hclear

theorem run_stored (h : d.Ready root mode) (hroot : [] ∉ root.base.names) (hmode : mode ≠ .console)
    {before after : List (Job C)} (hjobs : ∀ k ∈ before ++ j :: after, k.Plain mode root)
    (hr : j.Returns) (hafter : ∀ k ∈ after, k.target root ≠ j.target root) :
    (run d (before ++ j :: after)).files (j.target root) = some j.text := by
  rw [List.forall_mem_append, List.forall_mem_cons] at hjobs
  obtain ⟨hbefore, hj, hlater⟩ := hjobs
  have hready := run_ready h hroot hbefore
  obtain ⟨hclosed, hstored⟩ := writeFile_stored hready hroot hmode hj hr
  have hclear : (j.writeFile (run d before)).Clear (j.target root) :=
    fun ho => absurd (hclosed.symm.trans ho) Bool.false_ne_true
  rw [run_append, ← hstored]
  exact run_files (writeFile_ready hready hroot hj) hroot hlater hafter hclear

end Job

/-- A call of `Writer::write`. -/
structure Write (C : Type) where
  fs : FileSystem
  render : WriteFile C
  ast : OutputNode C

namespace Write

def jobs (w : Write C) : List (Job C) := w.ast.visits.map (⟨w.fs, w.render, ·⟩)

def run (d : DestinationDef) (writes : List (Write C)) : DestinationDef :=
  writes.foldl (fun d w => Writer.write w.fs w.render d w.ast) d

theorem run_eq (d : DestinationDef) (writes : List (Write C)) :
    run d writes = Job.run d (writes.flatMap jobs) := by
  induction writes generalizing d with
  | nil => rfl
  | cons w writes ih =>
    have hw : Writer.write w.fs w.render d w.ast = Job.run d w.jobs := by
      rw [Job.run, jobs, List.foldl_map]
      rfl
    rw [List.flatMap_cons, Job.run_append, ← hw, ← ih]
    rfl

end Write

/-- Files with plain names land under the root, whatever was written before them. -/
theorem Writer.files_land {d : DestinationDef} (writes : List (Write C))
    (hd : d = .synthetic ∨ ∃ path disk, d = .dir path disk)
    (hplain : ∀ j ∈ writes.flatMap Write.jobs, j.Plain d.mode d.path) :
    (∀ before j after, writes.flatMap Write.jobs = before ++ j :: after → j.Returns →
      (∀ k ∈ after, k.target d.path ≠ j.target d.path) →
      (Write.run d writes).files (j.target d.path) = some j.text) ∧
    (∀ q, (∀ j ∈ writes.flatMap Write.jobs, j.target d.path ≠ q) →
      (Write.run d writes).files q = d.files q) ∧
    ((Write.run d writes).isOpen = false → (Write.run d writes).path.base = d.path.base) := by
  have hclosed : d.isOpen = false := by
    obtain rfl | ⟨path, disk, rfl⟩ := hd <;> rfl
  have hstream : d.sstream = "" := by
    obtain rfl | ⟨path, disk, rfl⟩ := hd <;> rfl
  have hmode : d.mode ≠ .console := by
    obtain rfl | ⟨path, disk, rfl⟩ := hd <;> exact nofun
  have hroot : [] ∉ d.path.base.names := by
    obtain rfl | ⟨path, disk, rfl⟩ := hd <;> exact Path.parse_base _
  have hready : d.Ready d.path d.mode := {
    sameMode := rfl
    closed := fun _ => rfl
    opened := fun ho => absurd (hclosed.symm.trans ho) Bool.false_ne_true
    buffer := fun _ _ => hstream }
  rw [Write.run_eq]
  refine ⟨?_, ?_, (Job.run_ready hready hroot hplain).closed⟩
  · intro before j after hjobs hr hafter
    rw [hjobs] at hplain ⊢
    exact Job.run_stored hready hroot hmode hplain hr hafter
  · intro q hq
    exact Job.run_files hready hroot hplain hq
      fun ho => absurd (hclosed.symm.trans ho) Bool.false_ne_true

def FileSystem.granting : FileSystem :=
  { createDirectories := fun _ => true, openFile := fun _ => true }

/-- A writer that writes strings as they are. -/
def Write.strings (fs : FileSystem) (ast : OutputNode String) : Write String :=
  { fs := fs, render := fun text => (text, .ok true), ast := ast }

theorem Writer.files_land_two : (Write.run (.dir "out" fun _ => none) [.strings .granting
      (.top [.directory "." [.file ⟨"b", "2"⟩, .file ⟨"a", "1"⟩]])]).files
    (.parse "out/a".toList) = some "1" := by
  have hplain : ∀ j ∈ [Write.strings .granting
      (.top [.directory "." [.file ⟨"b", "2"⟩, .file ⟨"a", "1"⟩]])].flatMap Write.jobs,
      j.Plain .fileSystem (.parse "out".toList) := by
    intro j hj
    obtain rfl | hj := List.mem_cons.1 hj
    · exact { name := by decide, directory := fun _ _ => rfl, file := fun _ => rfl, text := nofun }
    · obtain rfl := List.mem_singleton.1 hj
      exact { name := by decide, directory := fun _ _ => rfl, file := fun _ => rfl, text := nofun }
  exact (Writer.files_land (d := .dir "out" fun _ => none) _ (.inr ⟨_, _, rfl⟩) hplain).1
    [] _ _ rfl ⟨true, rfl⟩ (by decide)

/-- A name with a separator takes the files after it along. -/
theorem Writer.subdirectory_stays : (Write.run .synthetic [.strings .granting
      (.top [.directory "." [.file ⟨"c", "2"⟩, .file ⟨"a/b", "1"⟩]])]).files
    (.parse "./c".toList) = none ∧
    (Write.run .synthetic [.strings .granting
      (.top [.directory "." [.file ⟨"c", "2"⟩, .file ⟨"a/b", "1"⟩]])]).files
    (.parse "./a/c".toList) = some "2" := by
  decide

end Trieste
