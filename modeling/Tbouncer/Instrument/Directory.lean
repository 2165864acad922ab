import Mathlib.Data.List.Nodup
import Mathlib.Logic.Function.Basic
import Tbouncer.Instrument.Files

/-!
# The tool on a directory

`modify_all_c_files_in_directory` goes through everything below a directory in the order
of `os.walk`: the files of a directory, then its subdirectories one after the other. The
files are treated in place, one at a time, and the first one that cannot be decoded ends
the run.
-/

namespace Tbouncer.Instrument
open Base

/- `os.path.join(root, name)` for a name that is not absolute. -/
def separator (root : Text) : Text := if root.getLast?.all (· == '/') then [] else ['/']
def join (root name : Text) : Text := root ++ (separator root ++ name)

/- The entries of a directory in the order of os.scandir; no symbolic links. -/
inductive Listing where
  | nil
  | file (name : Text) (rest : Listing)
  | dir (name : Text) (sub rest : Listing)

namespace Listing

def files : Listing → List Text
  | nil => []
  | file name rest => name :: files rest
  | dir _ _ rest => files rest

def dirs : Listing → List Text
  | nil => []
  | file _ rest => dirs rest
  | dir name _ rest => name :: dirs rest

/- What os.walk yields behind the directory itself. -/
def walkBelow (root : Text) : Listing → List (Text × List Text)
  | nil => []
  | file _ rest => walkBelow root rest
  | dir name sub rest =>
      (join root name, sub.files) :: walkBelow (join root name) sub ++ walkBelow root rest

/- `os.walk(root)`, the lists of subdirectories left out. -/
def walk (root : Text) (l : Listing) : List (Text × List Text) :=
  (root, l.files) :: walkBelow root l

end Listing

def isCFile (name : Text) : Bool := ".c".toList.isSuffixOf name

/- The files that are handed to modify_c_file, in order. -/
def cFiles (root : Text) (l : Listing) : List Text :=
  (l.walk root).flatMap fun x => (x.2.filter isCFile).map (join x.1)

abbrev Contents := Text → Bytes

/- The file system after a run, and whether an exception ended it. -/
structure Outcome where
  contents : Contents
  raised : Bool

section
variable (isalnum : Char → Bool) (script : Script)

def modifyEach : List Text → Contents → Outcome
  | [], contents => ⟨contents, false⟩
  | path :: paths, contents =>
      match modifyFile isalnum script path (contents path) with
      | none => ⟨contents, true⟩
      | some new => modifyEach paths (Function.update contents path new)

/- `modify.py:67-79`; `none` for a path that is no directory. -/
def modifyAllCFilesInDirectory (directoryPath : Text) (top : Option Listing)
    (contents : Contents) : Outcome :=
  match top with
  | none => ⟨contents, false⟩
  | some l => modifyEach isalnum script (cFiles directoryPath l) contents

end

/-! ### The paths that are visited -/

namespace Listing

/- The files below the subdirectories: the names of the directories that lead there, and
that of the file. -/
def deeper : Listing → List (List Text × Text)
  | nil => []
  | file _ rest => deeper rest
  | dir name sub rest =>
      (sub.files.map fun f => ([name], f)) ++ (deeper sub).map (fun x => (name :: x.1, x.2)) ++
        deeper rest

def entries (l : Listing) : List (List Text × Text) := (l.files.map fun f => ([], f)) ++ l.deeper

def EntryName (name : Text) : Prop := name ≠ [] ∧ '/' ∉ name

/- Every directory has its entries once. -/
def Ok : Listing → Prop
  | nil => True
  | file name rest => (EntryName name ∧ name ∉ rest.files) ∧ Ok rest
  | dir name sub rest => (EntryName name ∧ name ∉ rest.dirs) ∧ Ok sub ∧ Ok rest

end Listing
open Listing

def pathOf (root : Text) (x : List Text × Text) : Text := join (x.1.foldl join root) x.2

theorem walkBelow_files (root : Text) (l : Listing) (keep : Text → Bool) :
    ((l.walkBelow root).flatMap fun x => (x.2.filter keep).map (join x.1)) =
      (l.deeper.filter fun x => keep x.2).map (pathOf root) := by
  induction l generalizing root with
  | nil => rfl
  | file name rest ih => exact ih root
  | dir name sub rest ihsub ihrest =>
    rw [walkBelow, deeper, List.flatMap_append, List.flatMap_cons, ihsub, ihrest]
    simp only [List.filter_append, List.map_append, List.filter_map, List.map_map]
    rfl

/- The files handed on are the .c files below the directory. -/
theorem cFiles_eq (root : Text) (l : Listing) :
    cFiles root l = (l.entries.filter fun x => isCFile x.2).map (pathOf root) := by
  rw [cFiles, walk, List.flatMap_cons, walkBelow_files, entries, List.filter_append,
    List.map_append, List.filter_map, List.map_map]
  rfl

/-! ### No path is visited twice -/

theorem getLast_join {root name : Text} (h : EntryName name) :
    ∃ c, (join root name).getLast? = some c ∧ c ≠ '/' := by
  have hlast : (join root name).getLast? = name.getLast? := by
    rw [join, ← List.append_assoc, List.getLast?_append_of_ne_nil _ h.1]
  refine ⟨name.getLast h.1, ?_, fun hc => h.2 (hc ▸ List.getLast_mem h.1)⟩
  rw [hlast, List.getLast?_eq_getLast_of_ne_nil h.1]

/- Behind the first name a path is made of slashes and names. -/
theorem foldl_join (root name : Text) (names : List Text) (h : EntryName name)
    (hall : ∀ n ∈ names, EntryName n) :
    names.foldl join (join root name) =
      root ++ (separator root ++ (name ++ names.flatMap fun n => '/' :: n)) := by
  induction names generalizing root name with
  | nil =>
    rw [List.flatMap_nil, List.append_nil]
    rfl
  | cons n names ih =>
    obtain ⟨hn, hrest⟩ := List.forall_mem_cons.mp hall
    obtain ⟨c, hlast, hc⟩ : ∃ c, (join root name).getLast? = some c ∧ c ≠ '/' := getLast_join h
    have hsep : separator (join root name) = ['/'] := by
      rw [separator, hlast]
      simp [hc]
    rw [List.foldl_cons, ih (join root name) n hn hrest, hsep, List.flatMap_cons, join]
    simp only [List.append_assoc, List.nil_append, List.cons_append]

theorem takeWhile_name {name : Text} (h : '/' ∉ name) (names : List Text) :
    (name ++ names.flatMap fun n => '/' :: n).takeWhile (· ≠ '/') = name := by
  have hall : ∀ c ∈ name, decide (c ≠ '/') = true := by
    intro c hc
    rw [decide_eq_true_iff]
    rintro rfl
    exact h hc
  rw [List.takeWhile_append_of_pos hall]
  cases names with
  | nil => exact List.append_nil name
  | cons n names =>
    rw [List.flatMap_cons, List.cons_append, List.takeWhile_cons]
    exact List.append_nil name

theorem slashed_inj {names names' : List Text} (hall : ∀ n ∈ names, '/' ∉ n)
    (hall' : ∀ n ∈ names', '/' ∉ n)
    (h : (names.flatMap fun n => '/' :: n) = names'.flatMap fun n => '/' :: n) :
    names = names' := by
  induction names generalizing names' with
  | nil =>
    cases names' with
    | nil => rfl
    | cons n names' => cases h
  | cons n names ih =>
    cases names' with
    | nil => cases h
    | cons n' names' =>
      obtain ⟨hn, hns⟩ := List.forall_mem_cons.mp hall
      obtain ⟨hn', hns'⟩ := List.forall_mem_cons.mp hall'
      rw [List.flatMap_cons, List.flatMap_cons, List.cons_append, List.cons_append] at h
      have htail := (List.cons.inj h).2
      have hfirst : n = n' := by
        rw [← takeWhile_name hn names, htail, takeWhile_name hn']
      rw [hfirst] at htail
      rw [hfirst, ih hns hns' (List.append_cancel_left htail)]

/- Different files have different paths. -/
theorem pathOf_inj {root : Text} {x y : List Text × Text}
    (hx : ∀ n ∈ x.1 ++ [x.2], EntryName n) (hy : ∀ n ∈ y.1 ++ [y.2], EntryName n)
    (h : pathOf root x = pathOf root y) : x = y := by
  have hpath : ∀ z : List Text × Text, (∀ n ∈ z.1 ++ [z.2], EntryName n) →
      ∃ name names, z.1 ++ [z.2] = name :: names ∧
        pathOf root z = root ++ (separator root ++ (name ++ names.flatMap fun n => '/' :: n)) := by
    intro z hz
    have hfold : pathOf root z = (z.1 ++ [z.2]).foldl join root := by
      rw [List.foldl_append]
      rfl
    cases hnames : z.1 ++ [z.2] with
    | nil => simp at hnames
    | cons name names =>
      rw [hnames] at hfold hz
      obtain ⟨hname, hall⟩ := List.forall_mem_cons.mp hz
      exact ⟨name, names, rfl, by rw [hfold, List.foldl_cons, foldl_join root name names hname hall]⟩
  obtain ⟨name, names, hz, hp⟩ := hpath x hx
  obtain ⟨name', names', hz', hp'⟩ := hpath y hy
  rw [hz] at hx
  rw [hz'] at hy
  obtain ⟨hname, hall⟩ := List.forall_mem_cons.mp hx
  obtain ⟨hname', hall'⟩ := List.forall_mem_cons.mp hy
  rw [hp, hp'] at h
  have hrest := List.append_cancel_left (List.append_cancel_left h)
  have hfirst : name = name' := by
    rw [← takeWhile_name hname.2 names, hrest, takeWhile_name hname'.2]
  rw [hfirst] at hrest
  have hothers := slashed_inj (fun n hn => (hall n hn).2) (fun n hn => (hall' n hn).2)
    (List.append_cancel_left hrest)
  have hsnoc : x.1 ++ [x.2] = y.1 ++ [y.2] := by rw [hz, hz', hfirst, hothers]
  obtain ⟨hdirs, hfile⟩ := List.append_inj' hsnoc rfl
  exact Prod.ext hdirs (List.cons.inj hfile).1

namespace Listing

theorem files_ok {l : Listing} (h : l.Ok) : l.files.Nodup ∧ ∀ f ∈ l.files, EntryName f := by
  induction l with
  | nil => exact ⟨List.nodup_nil, List.forall_mem_nil _⟩
  | file name rest ih =>
    obtain ⟨⟨hname, hnew⟩, hrest⟩ := h
    obtain ⟨hnodup, hall⟩ := ih hrest
    exact ⟨List.nodup_cons.mpr ⟨hnew, hnodup⟩, List.forall_mem_cons.mpr ⟨hname, hall⟩⟩
  | dir name sub rest _ ih => exact ih h.2.2

/- A file below a subdirectory is reached through the name of one. -/
theorem deeper_head {l : Listing} {x : List Text × Text} (h : x ∈ l.deeper) :
    ∃ name more, x.1 = name :: more ∧ name ∈ l.dirs := by
  induction l with
  | nil => cases h
  | file name rest ih => exact ih h
  | dir name sub rest _ ih =>
    rw [deeper, List.mem_append, List.mem_append, List.mem_map, List.mem_map] at h
    rcases h with ((⟨f, -, rfl⟩ | ⟨y, -, rfl⟩) | h)
    · exact ⟨name, [], rfl, List.mem_cons_self ..⟩
    · exact ⟨name, y.1, rfl, List.mem_cons_self ..⟩
    · obtain ⟨d, more, hd, hmem⟩ := ih h
      exact ⟨d, more, hd, List.mem_cons_of_mem _ hmem⟩

theorem deeper_names {l : Listing} (h : l.Ok) {x : List Text × Text} (hx : x ∈ l.deeper) :
    ∀ n ∈ x.1 ++ [x.2], EntryName n := by
  induction l generalizing x with
  | nil => cases hx
  | file name rest ih => exact ih h.2 hx
  | dir name sub rest ihsub ihrest =>
    obtain ⟨⟨hname, -⟩, hsub, hrest⟩ := h
    rw [deeper, List.mem_append, List.mem_append, List.mem_map, List.mem_map] at hx
    rcases hx with ((⟨f, hf, rfl⟩ | ⟨y, hy, rfl⟩) | hx)
    · exact List.forall_mem_cons.mpr
        ⟨hname, List.forall_mem_singleton.mpr ((files_ok hsub).2 f hf)⟩
    · exact List.forall_mem_cons.mpr ⟨hname, ihsub hsub hy⟩
    · exact ihrest hrest hx

theorem deeper_nodup {l : Listing} (h : l.Ok) : l.deeper.Nodup := by
  induction l with
  | nil => exact List.nodup_nil
  | file name rest ih => exact ih h.2
  | dir name sub rest ihsub ihrest =>
    obtain ⟨⟨-, hnew⟩, hsub, hrest⟩ := h
    have hfiles : (sub.files.map fun f => ([name], f)).Nodup :=
      (files_ok hsub).1.map fun f g hfg => congrArg Prod.snd hfg
    have hdeep : (sub.deeper.map fun x => (name :: x.1, x.2)).Nodup := by
      refine (ihsub hsub).map fun x y hxy => ?_
      obtain ⟨h1, h2⟩ := Prod.mk.inj hxy
      exact Prod.ext (List.cons.inj h1).2 h2
    rw [deeper, List.nodup_append, List.nodup_append]
    refine ⟨⟨hfiles, hdeep, ?_⟩, ihrest hrest, ?_⟩
    · -- one name or more than one
      intro x hx y hy hxy
      obtain ⟨f, -, rfl⟩ := List.mem_map.mp hx
      obtain ⟨z, hz, rfl⟩ := List.mem_map.mp hy
      obtain ⟨d, more, hd, -⟩ := deeper_head hz
      have hnil := (List.cons.inj (Prod.mk.inj hxy).1).2
      rw [hd] at hnil
      cases hnil
    · -- a first name that no later subdirectory has
      intro x hx y hy hxy
      obtain ⟨d, more, hd, hmem⟩ := deeper_head hy
      have hfirst : ∃ more', x.1 = name :: more' := by
        rcases List.mem_append.mp hx with hx | hx
        · obtain ⟨f, -, rfl⟩ := List.mem_map.mp hx
          exact ⟨_, rfl⟩
        · obtain ⟨z, -, rfl⟩ := List.mem_map.mp hx
          exact ⟨_, rfl⟩
      obtain ⟨more', hmore⟩ := hfirst
      rw [← hxy, hmore] at hd
      rw [(List.cons.inj hd).1] at hnew
      exact hnew hmem

theorem entries_ok {l : Listing} (h : l.Ok) :
    l.entries.Nodup ∧ ∀ x ∈ l.entries, ∀ n ∈ x.1 ++ [x.2], EntryName n := by
  constructor
  · have hfiles : (l.files.map fun f => (([] : List Text), f)).Nodup :=
      (files_ok h).1.map fun f g hfg => congrArg Prod.snd hfg
    rw [entries, List.nodup_append]
    refine ⟨hfiles, deeper_nodup h, fun x hx y hy hxy => ?_⟩
    obtain ⟨f, -, rfl⟩ := List.mem_map.mp hx
    obtain ⟨d, more, hd, -⟩ := deeper_head hy
    rw [← hxy] at hd
    cases hd
  · intro x hx
    rcases List.mem_append.mp hx with hx | hx
    · obtain ⟨f, hf, rfl⟩ := List.mem_map.mp hx
      exact List.forall_mem_singleton.mpr ((files_ok h).2 f hf)
    · exact deeper_names h hx

end Listing

theorem cFiles_nodup (root : Text) {l : Listing} (h : l.Ok) : (cFiles root l).Nodup := by
  obtain ⟨hnodup, hnames⟩ := entries_ok h
  rw [cFiles_eq]
  refine List.Nodup.map_on ?_ (hnodup.filter _)
  intro x hx y hy hxy
  exact pathOf_inj (hnames x (List.mem_filter.mp hx).1) (hnames y (List.mem_filter.mp hy).1) hxy

/-! ### A run over the paths -/

section
variable {isalnum : Char → Bool} {script : Script}

theorem modifyFile_eq_none_iff {filePath : Text} {content : Bytes} :
    modifyFile isalnum script filePath content = none ↔ readText content = none := by
  rw [modifyFile, Option.map_eq_none_iff]

/- `treated` is what the run got to before it ended or met a file it cannot decode. -/
structure Treats (isalnum : Char → Bool) (script : Script) (contents : Contents) (out : Outcome)
    (treated rest : List Text) : Prop where
  done : ∀ path ∈ treated,
    modifyFile isalnum script path (contents path) = some (out.contents path)
  others : ∀ path, path ∉ treated → out.contents path = contents path
  completed : rest = [] → out.raised = false
  stopped : ∀ path more, rest = path :: more →
    out.raised = true ∧ readText (contents path) = none

theorem modifyEach_treats (paths : List Text) (hpaths : paths.Nodup) (contents : Contents) :
    ∃ treated rest, paths = treated ++ rest ∧
      Treats isalnum script contents (modifyEach isalnum script paths contents) treated rest := by
  induction paths generalizing contents with
  | nil =>
    refine ⟨[], [], rfl, List.forall_mem_nil _, fun _ _ => rfl, fun _ => rfl, ?_⟩
    intro path more h
    cases h
  | cons path paths ih =>
    obtain ⟨hnew, hrest⟩ := List.nodup_cons.mp hpaths
    rw [modifyEach]
    cases hmodify : modifyFile isalnum script path (contents path) with
    | none =>
      refine ⟨[], path :: paths, rfl, List.forall_mem_nil _, fun _ _ => rfl, ?_, ?_⟩
      · intro h
        cases h
      · intro path' more h
        obtain ⟨rfl, -⟩ := List.cons.inj h
        exact ⟨rfl, modifyFile_eq_none_iff.mp hmodify⟩
    | some new =>
      obtain ⟨treated, rest, hsplit, h⟩ := ih hrest (Function.update contents path new)
      have hkept : ∀ path' ∈ paths, Function.update contents path new path' = contents path' := by
        intro path' hmem
        apply Function.update_of_ne
        rintro rfl
        exact hnew hmem
      have hout : path ∉ treated := fun hmem => hnew (hsplit ▸ List.mem_append_left _ hmem)
      refine ⟨path :: treated, rest, by rw [hsplit]; rfl, ?_, ?_, h.completed, ?_⟩
      · refine List.forall_mem_cons.mpr ⟨?_, fun path' hmem => ?_⟩
        · rw [hmodify]
          show some new = some ((modifyEach isalnum script paths _).contents path)
          rw [h.others path hout, Function.update_self]
        · have hdone := h.done path' hmem
          rwa [hkept path' (hsplit ▸ List.mem_append_left _ hmem)] at hdone
      · intro path' hmem
        show (modifyEach isalnum script paths _).contents path' = contents path'
        rw [h.others path' fun hin => hmem (List.mem_cons_of_mem _ hin)]
        apply Function.update_of_ne
        rintro rfl
        exact hmem (List.mem_cons_self ..)
      · intro path' more hr
        obtain ⟨hraised, hnone⟩ := h.stopped path' more hr
        refine ⟨hraised, ?_⟩
        rwa [hkept path' (by rw [hsplit, hr]; simp)] at hnone

/-- A run over a directory hands every .c file below it to modify_c_file once and with
the contents it had before the run, up to the first file that is no UTF-8. Every other
file stays as it is. -/
theorem modify_directory (directoryPath : Text) (l : Listing) (h : l.Ok) (contents : Contents) :
    (∀ path, path ∈ cFiles directoryPath l ↔
      ∃ x ∈ l.entries, isCFile x.2 = true ∧ pathOf directoryPath x = path) ∧
    (cFiles directoryPath l).Nodup ∧
    ∃ treated rest, cFiles directoryPath l = treated ++ rest ∧
      Treats isalnum script contents
        (modifyAllCFilesInDirectory isalnum script directoryPath (some l) contents) treated rest := by
  refine ⟨fun path => ?_, cFiles_nodup directoryPath h,
    modifyEach_treats (cFiles directoryPath l) (cFiles_nodup directoryPath h) contents⟩
  simp only [cFiles_eq, List.mem_map, List.mem_filter, and_assoc]

end

/- A part of `process-based/syscalls`, the second of the files not being text. -/
def testTree : Listing :=
  .file "modify.py".toList (.dir "mmap".toList (.file "mmap18.c".toList .nil)
    (.dir "fstat".toList (.file "Makefile".toList (.file "fstat03.c".toList .nil)) .nil))

def testContents : Contents := fun path =>
  if path = "./mmap/mmap18.c".toList then encodeUtf8 mmap18.flatten else [0xff]

theorem testTree_ok : testTree.Ok := by
  simp only [testTree, Listing.Ok, EntryName, Listing.files, Listing.dirs]
  decide

example : cFiles ".".toList testTree = ["./mmap/mmap18.c".toList, "./fstat/fstat03.c".toList] := by
  decide

theorem modify_directory_testTree :
    (∀ path, path ∈ cFiles ".".toList testTree ↔
      ∃ x ∈ testTree.entries, isCFile x.2 = true ∧ pathOf ".".toList x = path) ∧
    (cFiles ".".toList testTree).Nodup ∧
    ∃ treated rest, cFiles ".".toList testTree = treated ++ rest ∧
      Treats Char.isAlphanum .syscalls testContents
        (modifyAllCFilesInDirectory Char.isAlphanum .syscalls ".".toList (some testTree)
          testContents) treated rest :=
  modify_directory ".".toList testTree testTree_ok testContents

end Tbouncer.Instrument
