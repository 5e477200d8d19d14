import Mathlib.Data.List.Basic
import Mathlib.Data.List.TakeWhile
import Mathlib.Tactic.Common
import SmallImp.CommandLine.Files

/-!
# Files beside files

A document lies beside the source file that it was made from. Writing it changes that one file, and
every directory stays where it is.

* `NamesFile` — a text whose last part can be the name of a file;
* `Path.ofText_append` — the path of a text that goes on after the name of a file;
* `Path.stem`, `Path.addToName_eq` — the text of a path to whose name something is added;
* `FileTree.enter` — the directory that parts of a path lead to;
* `FileTree.content?_setFile`, `FileTree.isDirectory_setFile` — a tree after a file was set;
* `FileTree.write_beside` — a file that is written beside another can be found by its path;
* `FileTree.target_single_ne_directory` — a file that is alone has no directory beside it.
-/

namespace SmallImp

/-! ### Paths -/

theorem splitSlashes_slash (cs : List Char) :
    splitSlashes ('/' :: cs) = [] :: splitSlashes cs := rfl

theorem splitSlashes_cons {c : Char} (hc : c ≠ '/') {cs part : List Char}
    {rest : List (List Char)} (hparts : splitSlashes cs = part :: rest) :
    splitSlashes (c :: cs) = (c :: part) :: rest := by
  simp only [splitSlashes] at hparts
  simp [splitSlashes, hparts]

theorem splitSlashes_of_notMem {cs : List Char} (h : '/' ∉ cs) : splitSlashes cs = [cs] := by
  induction cs with
  | nil => rfl
  | cons c cs ih =>
    rw [List.mem_cons, not_or] at h
    exact splitSlashes_cons (Ne.symm h.1) (ih h.2)

/-- What follows a text, and has no slash, belongs to the last part of the text. -/
theorem splitSlashes_append (cs : List Char) {more : List Char} (hmore : '/' ∉ more) :
    ∃ dirs name, splitSlashes cs = dirs ++ [name] ∧
      splitSlashes (cs ++ more) = dirs ++ [name ++ more] := by
  induction cs with
  | nil => exact ⟨[], [], rfl, splitSlashes_of_notMem hmore⟩
  | cons c cs ih =>
    obtain ⟨dirs, name, hcs, happend⟩ := ih
    by_cases hc : c = '/'
    · subst hc
      refine ⟨[] :: dirs, name, ?_, ?_⟩
      · rw [splitSlashes_slash, hcs, List.cons_append]
      · rw [List.cons_append, splitSlashes_slash, happend, List.cons_append]
    · cases dirs with
      | nil => exact ⟨[], c :: name, splitSlashes_cons hc hcs, splitSlashes_cons hc happend⟩
      | cons dir dirs =>
        exact ⟨(c :: dir) :: dirs, name, splitSlashes_cons hc hcs, splitSlashes_cons hc happend⟩

theorem splitSlashes_concat_slash (cs : List Char) :
    splitSlashes (cs ++ ['/']) = splitSlashes cs ++ [[]] := by
  induction cs with
  | nil => rfl
  | cons c cs ih =>
    by_cases hc : c = '/'
    · rw [hc, List.cons_append, splitSlashes_slash, splitSlashes_slash, ih, List.cons_append]
    · obtain ⟨part, rest, hcs⟩ : ∃ part rest, splitSlashes cs = part :: rest := by
        obtain ⟨dirs, name, hcs, -⟩ := splitSlashes_append cs (List.not_mem_nil (a := '/'))
        exact List.exists_cons_of_ne_nil (by simp [hcs])
      rw [hcs, List.cons_append] at ih
      rw [List.cons_append, splitSlashes_cons hc ih, splitSlashes_cons hc hcs, List.cons_append]

/-- The parts of a text of slashes are empty. -/
theorem splitSlashes_slashes {cs : List Char} (h : ∀ c ∈ cs, c = '/') :
    ∀ part ∈ splitSlashes cs, part = [] := by
  induction cs with
  | nil => simp [splitSlashes]
  | cons c cs ih =>
    rw [List.forall_mem_cons] at h
    rw [h.1, splitSlashes_slash, List.forall_mem_cons]
    exact ⟨rfl, ih h.2⟩

/-- The last part of a text can be the name of a file. -/
def NamesFile (text : String) : Prop :=
  ∀ name ∈ (splitSlashes text.toList).getLast?, name ∉ [[], ['.'], ['.', '.']]

instance (text : String) : Decidable (NamesFile text) :=
  inferInstanceAs (Decidable (∀ name ∈ (splitSlashes text.toList).getLast?, _))

theorem NamesFile.exists_notSlash {text : String} (h : NamesFile text) :
    ∃ c ∈ text.toList, c ≠ '/' := by
  by_contra hall
  push Not at hall
  obtain ⟨dirs, name, hparts, -⟩ := splitSlashes_append text.toList (List.not_mem_nil (a := '/'))
  have hname : name = [] := splitSlashes_slashes hall name (by rw [hparts]; simp)
  exact h name (by rw [hparts]; simp) (by rw [hname]; decide)

/-- Parts that are names: they lead into a directory or to a file in it. -/
def IsPartName (part : String) : Prop := part ∉ ["", ".", ".."]

theorem isPartName_iff {part : String} :
    IsPartName part ↔ part ≠ "" ∧ part ≠ "." ∧ part ≠ ".." := by
  simp [IsPartName]

theorem isPartName_ofList {name : List Char} (h : name ∉ [[], ['.'], ['.', '.']]) :
    IsPartName (String.ofList name) := by
  simpa [IsPartName, ← String.toList_inj] using h

theorem isPartName_of_length {part : String} (h : 2 < part.length) : IsPartName part := by
  rw [isPartName_iff]
  refine ⟨?_, ?_, ?_⟩ <;> rintro rfl <;> exact absurd h (by decide)

namespace Path

/-- The parts of a path among the parts of its text. -/
def partsOf (parts : List (List Char)) : List String :=
  (parts.map String.ofList).filter fun part => part ≠ "" ∧ part ≠ "."

theorem ofText_def (text : String) :
    ofText text = ⟨rootOf text.toList, partsOf (splitSlashes text.toList)⟩ := rfl

theorem partsOf_append (parts more : List (List Char)) :
    partsOf (parts ++ more) = partsOf parts ++ partsOf more := by
  rw [partsOf, List.map_append, List.filter_append, partsOf, partsOf]

theorem partsOf_singleton {name : List Char} (h : name ∉ [[], ['.']]) :
    partsOf [name] = [String.ofList name] := by
  have hname : String.ofList name ≠ "" ∧ String.ofList name ≠ "." := by
    simpa [← String.toList_inj] using h
  simp [partsOf, hname]

/-- Empty parts and single dots are left out. -/
theorem partsOf_eq_nil {parts : List (List Char)} (h : ∀ part ∈ parts, part ∈ [[], ['.']]) :
    partsOf parts = [] := by
  rw [partsOf, List.filter_eq_nil_iff, List.forall_mem_map]
  intro part hpart
  have hname : String.ofList part = "" ∨ String.ofList part = "." := by
    simpa [← String.toList_inj] using h part hpart
  rcases hname with hname | hname <;> simp [hname]

theorem counts_of_name {name : List Char} (h : name ∉ [[], ['.'], ['.', '.']]) :
    name ∉ [[], ['.']] := by
  simp only [List.mem_cons, not_or] at h ⊢
  exact ⟨h.1, h.2.1, List.not_mem_nil⟩

theorem append_counts (name : List Char) {more : String} (hlength : 2 < more.length) :
    name ++ more.toList ∉ [[], ['.']] := by
  intro h
  have hshort : (name ++ more.toList).length ≤ 1 := by
    simp only [List.mem_cons, List.not_mem_nil, or_false] at h
    rcases h with h | h <;> simp [h]
  rw [List.length_append, String.length_toList] at hshort
  omega

theorem rootOf_append {cs more : List Char} (h : (∃ c ∈ cs, c ≠ '/') ∨ '/' ∉ more) :
    rootOf (cs ++ more) = rootOf cs := by
  have htake : (cs ++ more).takeWhile (· = '/') = cs.takeWhile (· = '/') := by
    rw [List.takeWhile_append]
    split
    next hlength =>
      have hall := (List.takeWhile_sublist (l := cs) (· = '/')).eq_of_length hlength
      rw [hall]
      rw [List.takeWhile_eq_self_iff] at hall
      rcases h with ⟨c, hc, hslash⟩ | hmore
      · exact absurd (by simpa using hall c hc) hslash
      · cases more with
        | nil => simp
        | cons c more =>
          rw [List.mem_cons, not_or] at hmore
          rw [List.takeWhile_cons_of_neg (by simpa using Ne.symm hmore.1), List.append_nil]
    next => rfl
  rw [rootOf, rootOf, htake]

/-- The path of a text that ends in the name of a file, and the path of the text that goes on after
that name. -/
theorem ofText_append {f : String} (hf : NamesFile f) (more : String)
    (hslash : '/' ∉ more.toList) (hlength : 2 < more.length) :
    ∃ root dirs name, IsPartName name ∧ IsPartName (name ++ more) ∧
      ofText f = ⟨root, dirs ++ [name]⟩ ∧ ofText (f ++ more) = ⟨root, dirs ++ [name ++ more]⟩ := by
  obtain ⟨dirs, name, hparts, happend⟩ := splitSlashes_append f.toList hslash
  have hname : name ∉ [[], ['.'], ['.', '.']] := hf name (by rw [hparts]; simp)
  have hlong : IsPartName (String.ofList name ++ more) := by
    refine isPartName_of_length ?_
    rw [String.length_append]
    omega
  refine ⟨rootOf f.toList, partsOf dirs, String.ofList name, isPartName_ofList hname, hlong, ?_, ?_⟩
  · rw [ofText_def, hparts, partsOf_append, partsOf_singleton (counts_of_name hname)]
  · rw [ofText_def, String.toList_append, rootOf_append (.inr hslash), happend, partsOf_append,
      partsOf_singleton (append_counts name hlength), String.ofList_append, String.ofList_toList]

theorem addToName_append (root : String) (dirs : List String) (name more : String) :
    (⟨root, dirs ++ [name]⟩ : Path).addToName more = ⟨root, dirs ++ [name ++ more]⟩ := by
  simp [addToName]

/-! ### Texts of paths -/

/-- Leaves out characters at the end of a text, which is given in reverse, as long as it spells the
path without them. -/
def trimmed (path : Path) : List Char → List Char
  | [] => []
  | c :: rest => if ofText (String.ofList rest.reverse) = path then trimmed path rest else c :: rest

/-- A text without the slashes and single dots at its end that do not count for its path. -/
def stem (text : String) : String := String.ofList (trimmed (ofText text) text.toList.reverse).reverse

section

variable {cs : List Char} {dirs : List (List Char)} {name : List Char} {more : String}

theorem ofText_ofList (hparts : splitSlashes cs = dirs ++ [name]) :
    ofText (String.ofList cs) = ⟨rootOf cs, partsOf dirs ++ partsOf [name]⟩ := by
  rw [ofText_def, String.toList_ofList, hparts, partsOf_append]

/-- The last part of a text counts for its path, or the path has no parts at all. -/
def EndsInPart (dirs : List (List Char)) (name : List Char) : Prop :=
  name ∉ [[], ['.']] ∨ (name = [] ∧ partsOf dirs = [])

/-- What follows a text is added to the name of its path, if the last part counts. -/
theorem addToName_of_endsInPart (hparts : splitSlashes cs = dirs ++ [name])
    (happend : splitSlashes (cs ++ more.toList) = dirs ++ [name ++ more.toList])
    (hend : EndsInPart dirs name) (hslash : '/' ∉ more.toList) (hlength : 2 < more.length) :
    (ofText (String.ofList cs)).addToName more = ofText (String.ofList (cs ++ more.toList)) := by
  rw [ofText_ofList hparts, ofText_ofList happend, rootOf_append (.inr hslash),
    partsOf_singleton (append_counts name hlength), String.ofList_append, String.ofList_toList]
  rcases hend with hname | ⟨rfl, hdirs⟩
  · rw [partsOf_singleton hname, addToName_append]
  · rw [hdirs, partsOf_eq_nil (by simp)]
    simp [addToName]

/-- A character that changes the path belongs to a part that counts, or is one of the slashes at the
beginning. -/
theorem endsInPart_of_ne {c : Char} (hparts : splitSlashes (cs ++ [c]) = dirs ++ [name])
    (hne : ofText (String.ofList cs) ≠ ofText (String.ofList (cs ++ [c]))) : EndsInPart dirs name := by
  by_cases hc : c = '/'
  · subst hc
    have hsplit := splitSlashes_concat_slash cs
    obtain ⟨rfl, hname⟩ := List.append_inj' (hparts.symm.trans hsplit) rfl
    cases hname
    have hslashes : ∀ c ∈ cs, c = '/' := by
      by_contra hother
      push Not at hother
      refine hne ?_
      rw [ofText_ofList hsplit, rootOf_append (.inl hother), ofText_def, String.toList_ofList]
      simp [partsOf]
    refine .inr ⟨rfl, partsOf_eq_nil fun part hpart => ?_⟩
    simp [splitSlashes_slashes hslashes part hpart]
  · have hc' : '/' ∉ [c] := by simpa using Ne.symm hc
    obtain ⟨dirs', start, hcs, hsplit⟩ := splitSlashes_append cs hc'
    obtain ⟨rfl, hname⟩ := List.append_inj' (hparts.symm.trans hsplit) rfl
    cases hname
    refine .inl fun hdot => hne ?_
    obtain ⟨rfl, rfl⟩ : start = [] ∧ c = '.' := by
      simpa [List.append_eq_singleton_iff] using hdot
    have hdropped : partsOf [[]] = partsOf [[] ++ ['.']] := by decide
    rw [ofText_ofList hcs, ofText_ofList hsplit, rootOf_append (.inr hc'), hdropped]

/-- A character that belongs to a part that counts changes the path. -/
theorem ofText_ne_concat {c : Char} (hcs : splitSlashes cs = dirs ++ [name])
    (hsplit : splitSlashes (cs ++ [c]) = dirs ++ [name ++ [c]]) (hname : name ++ [c] ∉ [[], ['.']]) :
    ofText (String.ofList cs) ≠ ofText (String.ofList (cs ++ [c])) := by
  rw [ofText_ofList hcs, ofText_ofList hsplit, partsOf_singleton hname]
  intro heq
  have hparts := List.append_cancel_left (congrArg Path.parts heq)
  by_cases hdropped : name ∈ [[], ['.']]
  · rw [partsOf_eq_nil (by simpa using hdropped)] at hparts
    cases hparts
  · rw [partsOf_singleton hdropped] at hparts
    simp [← String.toList_inj] at hparts

theorem addToName_trimmed {path : Path} (hslash : '/' ∉ more.toList) (hlength : 2 < more.length) :
    ∀ cs : List Char, ofText (String.ofList cs.reverse) = path →
      path.addToName more = ofText (String.ofList ((trimmed path cs).reverse ++ more.toList))
  | [], h => by
    have hparts : splitSlashes [] = [] ++ [[]] := rfl
    rw [← h]
    exact addToName_of_endsInPart hparts (splitSlashes_of_notMem hslash) (.inr ⟨rfl, rfl⟩) hslash
      hlength
  | c :: cs, h => by
    rw [trimmed]
    split
    next hsame => exact addToName_trimmed hslash hlength cs hsame
    next hother =>
      rw [List.reverse_cons] at h ⊢
      obtain ⟨dirs, name, hparts, happend⟩ := splitSlashes_append (cs.reverse ++ [c]) hslash
      rw [← h] at hother ⊢
      exact addToName_of_endsInPart hparts happend (endsInPart_of_ne hparts hother) hslash hlength

end

/-- Something is added to the name of a path by writing it after the stem of its text. -/
theorem addToName_eq (text : String) {more : String} (hslash : '/' ∉ more.toList)
    (hlength : 2 < more.length) : (ofText text).addToName more = ofText (stem text ++ more) := by
  have htext : ofText (String.ofList text.toList.reverse.reverse) = ofText text := by
    rw [List.reverse_reverse, String.ofList_toList]
  rw [addToName_trimmed hslash hlength _ htext, stem, String.ofList_append, String.ofList_toList]

example : stem "lib/./start/." = "lib/./start" ∧ ofText "lib/start.ast.json" =
    (ofText "lib/./start/.").addToName ".ast.json" := by decide

/-- Nothing is left out of a text that ends in the name of a file. -/
theorem stem_of_namesFile {text : String} (h : NamesFile text) : stem text = text := by
  rcases List.eq_nil_or_concat' text.toList with hnil | ⟨cs, c, hconcat⟩
  · exact absurd (h [] (by rw [hnil]; rfl)) (by decide)
  · have hc : '/' ∉ [c] := by
      rw [List.mem_singleton]
      rintro rfl
      refine h [] ?_ (by decide)
      rw [hconcat, splitSlashes_concat_slash]
      simp
    obtain ⟨dirs, start, hcs, hsplit⟩ := splitSlashes_append cs hc
    have hname : start ++ [c] ∉ [[], ['.']] :=
      counts_of_name (h (start ++ [c]) (by rw [hconcat, hsplit]; simp))
    have hother := ofText_ne_concat hcs hsplit hname
    have htext : text = String.ofList (cs ++ [c]) := by rw [← hconcat, String.ofList_toList]
    rw [stem, hconcat, List.reverse_append, List.reverse_singleton, List.singleton_append, trimmed,
      List.reverse_reverse, htext, if_neg hother, List.reverse_cons, List.reverse_reverse]

end Path

/-! ### Directories -/

namespace FileTree

variable {t : FileTree}

/-- Where a part of a path leads from a directory. -/
def onward (here : List String) (part : String) : List String :=
  if part = "" ∨ part = "." then here else if part = ".." then above here else here ++ [part]

theorem onward_of_isPartName {part : String} (h : IsPartName part) (here : List String) :
    onward here part = here ++ [part] := by
  simp [onward, isPartName_iff.mp h]

/-- The directory that parts of a path lead to. -/
def enter (t : FileTree) : List String → List String → Option (List String)
  | here, [] => if t.isDirectory here then some here else none
  | here, part :: rest => if t.isDirectory here then t.enter (onward here part) rest else none

theorem follow_cons {here : List String} (h : t.isDirectory here) (part : String)
    (rest : List String) : t.follow here (part :: rest) = t.follow (onward here part) rest := by
  rw [follow.eq_2, if_pos h, onward]
  split
  next => rfl
  next => split <;> rfl

/-- Only a directory leads on to a file. -/
theorem isDirectory_of_follow {here rest path : List String} {part : String} {content : ByteArray}
    (h : t.follow here (part :: rest) = .file path content) : t.isDirectory here := by
  by_contra hdir
  rw [follow, if_neg hdir] at h
  split at h <;> cases h

/-- A name after the parts that lead to a directory is looked up in that directory. -/
theorem follow_enter {dirs : List String} {name : String} (hname : IsPartName name)
    {here there : List String} (h : t.enter here dirs = some there) :
    t.follow here (dirs ++ [name]) = t.follow (there ++ [name]) [] := by
  induction dirs generalizing here with
  | nil =>
    rw [enter, Option.ite_none_right_eq_some] at h
    obtain ⟨hdir, hthere⟩ := h
    cases hthere
    rw [List.nil_append, follow_cons hdir, onward_of_isPartName hname]
  | cons part dirs ih =>
    rw [enter, Option.ite_none_right_eq_some] at h
    rw [List.cons_append, follow_cons h.1, ih h.2]

theorem enter_of_follow {dirs : List String} {name : String} {here path : List String}
    {content : ByteArray} (h : t.follow here (dirs ++ [name]) = .file path content) :
    ∃ there, t.enter here dirs = some there := by
  induction dirs generalizing here with
  | nil => exact ⟨here, by rw [enter, if_pos (isDirectory_of_follow h)]⟩
  | cons part dirs ih =>
    have hdir := isDirectory_of_follow h
    rw [List.cons_append, follow_cons hdir] at h
    rw [enter, if_pos hdir]
    exact ih h

theorem follow_nil_eq_file {here path : List String} {content : ByteArray}
    (h : t.follow here [] = .file path content) : path = here ∧ t.content? here = some content := by
  rw [follow] at h
  split at h
  next hcontent => cases h; exact ⟨rfl, hcontent⟩
  next => split at h <;> cases h

/-! ### Setting a file -/

theorem content?_setFile (path : List String) (content : ByteArray)
    (files : List (List String × ByteArray)) (other : List String) :
    (⟨setFile path content files⟩ : FileTree).content? other =
      if other = path then some content else (⟨files⟩ : FileTree).content? other := by
  induction files with
  | nil => by_cases h : other = path <;> simp [content?, setFile, h, Ne.symm]
  | cons file files ih =>
    simp only [content?] at ih ⊢
    by_cases hfile : file.1 = path
    · by_cases h : other = path
      · simp [setFile, hfile, h]
      · simp [setFile, hfile, h, Ne.symm h]
    · by_cases hother : file.1 = other
      · have hne : other ≠ path := hother ▸ hfile
        simp [setFile, hother, hne]
      · simp [setFile, hfile, hother, ih]

theorem any_setFile (path : List String) (content : ByteArray)
    (files : List (List String × ByteArray)) (test : List String → Bool) :
    (setFile path content files).any (fun file => test file.1) =
      (files.any (fun file => test file.1) || test path) := by
  induction files with
  | nil => simp [setFile]
  | cons file files ih =>
    by_cases hfile : file.1 = path
    · simp [setFile, hfile, Bool.or_comm]
    · simp [setFile, hfile, ih, Bool.or_assoc]

/-- The directories of a tree are those that were there, and those in which the new file lies. -/
theorem isDirectory_setFile (path : List String) (content : ByteArray)
    (files : List (List String × ByteArray)) (other : List String) :
    (⟨setFile path content files⟩ : FileTree).isDirectory other =
      ((⟨files⟩ : FileTree).isDirectory other || (other.isPrefixOf path && path != other)) := by
  rw [isDirectory, any_setFile path content files fun key => other.isPrefixOf key && key != other,
    isDirectory, Bool.or_assoc]

/-- Directories are entered as before after a file was set. -/
theorem enter_setFile (path : List String) (content : ByteArray)
    {files : List (List String × ByteArray)} {dirs here there : List String}
    (h : (⟨files⟩ : FileTree).enter here dirs = some there) :
    (⟨setFile path content files⟩ : FileTree).enter here dirs = some there := by
  have hkeep (other : List String) (hother : (⟨files⟩ : FileTree).isDirectory other) :
      (⟨setFile path content files⟩ : FileTree).isDirectory other := by
    rw [isDirectory_setFile, hother, Bool.true_or]
  induction dirs generalizing here with
  | nil =>
    rw [enter, Option.ite_none_right_eq_some] at h
    rw [enter, if_pos (hkeep here h.1), h.2]
  | cons part dirs ih =>
    rw [enter, Option.ite_none_right_eq_some] at h
    rw [enter, if_pos (hkeep here h.1), ih h.2]

/-! ### Writing beside a file -/

/-- The directory in which the parts of a path start. -/
def start (root : String) : List String := if root = "" then [] else ["/"]

theorem target_eq (t : FileTree) (root : String) (parts : List String) :
    t.target ⟨root, parts⟩ = t.follow (start root) parts := by
  unfold target start
  split <;> rfl

/-- Whether a directory takes the place that a file would have. -/
def occupied (t : FileTree) (here : List String) : Bool :=
  (t.content? here).isNone && t.isDirectory here

theorem follow_of_occupied {here : List String} (h : t.occupied here) :
    t.follow here [] = .directory := by
  rw [occupied, Bool.and_eq_true, Option.isNone_iff_eq_none] at h
  rw [follow, h.1]
  exact if_pos h.2

/-- Writing to a place sets the file there, unless a directory takes the place. -/
theorem write_eq {p : Path} {here : List String} (hp : t.target p = t.follow here [])
    (hne : here ≠ []) (text : String) :
    t.write p text = if t.occupied here then .error .directory
      else .ok ⟨setFile here text.toUTF8 t.files⟩ := by
  obtain ⟨part, rest, rfl⟩ := List.exists_cons_of_ne_nil hne
  rw [write, hp, follow, occupied]
  cases t.content? (part :: rest) with
  | some content => rfl
  | none => cases t.isDirectory (part :: rest) <;> rfl

/-- A file that a path leads to lies in the directory that the parts before its name lead to. -/
theorem enter_of_target {root : String} {dirs : List String} {name : String}
    (hname : IsPartName name) {path : List String} {content : ByteArray}
    (h : t.target ⟨root, dirs ++ [name]⟩ = .file path content) :
    ∃ there, t.enter (start root) dirs = some there ∧ path = there ++ [name] ∧
      t.content? path = some content := by
  rw [target_eq] at h
  obtain ⟨there, henter⟩ := enter_of_follow h
  rw [follow_enter hname henter] at h
  obtain ⟨rfl, hcontent⟩ := follow_nil_eq_file h
  exact ⟨there, henter, rfl, hcontent⟩

theorem isDirectory_of_enter {dirs here there : List String} (h : t.enter here dirs = some there) :
    t.isDirectory there := by
  induction dirs generalizing here with
  | nil =>
    rw [enter, Option.ite_none_right_eq_some] at h
    obtain ⟨hdir, hthere⟩ := h
    cases hthere
    exact hdir
  | cons part dirs ih =>
    rw [enter, Option.ite_none_right_eq_some] at h
    exact ih h.2

/-- A file can be written in a directory, unless there is a directory in its place, and can be found
then. -/
theorem write_entered {root : String} {dirs there : List String} {name : String}
    (hname : IsPartName name) (henter : t.enter (start root) dirs = some there)
    (hfree : t.target ⟨root, dirs ++ [name]⟩ ≠ .directory) (text : String) :
    t.write ⟨root, dirs ++ [name]⟩ text = .ok ⟨setFile (there ++ [name]) text.toUTF8 t.files⟩ ∧
      (⟨setFile (there ++ [name]) text.toUTF8 t.files⟩ : FileTree).target ⟨root, dirs ++ [name]⟩ =
        .file (there ++ [name]) text.toUTF8 := by
  have htarget := (target_eq t root _).trans (follow_enter hname henter)
  rw [htarget] at hfree
  constructor
  · rw [write_eq htarget (by simp), if_neg (mt follow_of_occupied hfree)]
  · rw [target_eq, follow_enter hname (enter_setFile _ _ henter), follow, content?_setFile, if_pos rfl]

/-- A file beside another can be written, unless there is a directory in its place, and can be found
then. -/
theorem write_beside {root : String} {dirs : List String} {name beside : String}
    (hname : IsPartName name) (hbeside : IsPartName beside)
    {path : List String} {content : ByteArray}
    (hfile : t.target ⟨root, dirs ++ [name]⟩ = .file path content)
    (hfree : t.target ⟨root, dirs ++ [beside]⟩ ≠ .directory) (text : String) :
    ∃ there, path = there ++ [name] ∧ t.content? path = some content ∧
      t.write ⟨root, dirs ++ [beside]⟩ text =
        .ok ⟨setFile (there ++ [beside]) text.toUTF8 t.files⟩ ∧
      (⟨setFile (there ++ [beside]) text.toUTF8 t.files⟩ : FileTree).target
        ⟨root, dirs ++ [beside]⟩ = .file (there ++ [beside]) text.toUTF8 := by
  obtain ⟨there, henter, hpath, hcontent⟩ := enter_of_target hname hfile
  exact ⟨there, hpath, hcontent, write_entered hbeside henter hfree text⟩

/-- In a directory that holds one file there is no directory beside it. -/
theorem target_single_ne_directory {root : String} {dirs : List String} {name beside : String}
    (hname : IsPartName name) (hbeside : IsPartName beside) (hslash : beside ≠ "/")
    {path path' : List String} {content content' : ByteArray}
    (hfile : (⟨[(path, content)]⟩ : FileTree).target ⟨root, dirs ++ [name]⟩ = .file path' content') :
    (⟨[(path, content)]⟩ : FileTree).target ⟨root, dirs ++ [beside]⟩ ≠ .directory := by
  obtain ⟨there, henter, rfl, hcontent⟩ := enter_of_target hname hfile
  obtain rfl : path = there ++ [name] := by
    by_contra hne
    simp [content?, hne] at hcontent
  have hdir : (⟨[(there ++ [name], content)]⟩ : FileTree).isDirectory (there ++ [beside]) = false := by
    have habove : isAbove (there ++ [beside]) = false := by
      simp [isAbove, isPartName_iff.mp hbeside, List.append_eq_singleton_iff, hslash]
    have hbelow : ((there ++ [beside]).isPrefixOf (there ++ [name]) &&
        (there ++ [name]) != (there ++ [beside])) = false := by
      by_contra h
      rw [Bool.not_eq_false, Bool.and_eq_true, List.isPrefixOf_iff_prefix, bne_iff_ne] at h
      exact h.2 (h.1.eq_of_length (by simp)).symm
    rw [isDirectory, habove, List.any_cons, hbelow]
    rfl
  rw [target_eq, follow_enter hbeside henter, follow, hdir]
  split
  next => simp
  next => simp

end FileTree

end SmallImp
