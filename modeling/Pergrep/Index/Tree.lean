import Pergrep.Index.Data
import Pergrep.Lib.PathOrder
/-!
# Tree — the directory tree, and the walk through it

`Index::build`, `Index::fresh` and `source_identity` walk the tree the same way: a `recursive_directory_iterator` that
skips hidden names unless they are included and links unless they are followed, and enters no directory twice when links
are followed.  What the walk finds has distinct paths (`walk_nodup`), each of which leads back to it (`stat_of_mem_walk`).
-/
namespace Pergrep

open PathOrder (join IsName)

/-- `/` -/
def slash : UInt8 := 47

/-- A regular file. -/
structure FileState where
  content : Bytes
  mtimeNs : Int64
  readable : Bool := true
  deriving DecidableEq, Repr

/-- What a name stands for, a link followed: a file, a directory by its number, or what is neither. -/
inductive Target where
  | file (s : FileState)
  | dir (d : Nat)
  | other
  deriving DecidableEq, Repr

structure DirEntry where
  name : Bytes
  link : Bool := false
  target : Target
  deriving DecidableEq, Repr

/-- A tree: its directories, the root first, each with its entries in the order they are listed. -/
structure Tree where
  root : Bytes := []
  rootMtimeNs : Int64 := 0
  dirs : List (List DirEntry)
  names_ok : ∀ es ∈ dirs, ∀ e ∈ es, IsName slash e.name
  names_nodup : ∀ es ∈ dirs, (es.map DirEntry.name).Nodup

def Tree.entries (t : Tree) (d : Nat) : List DirEntry := t.dirs.getD d []

def hidden (name : Bytes) : Bool := name.head? == some 46 && name != [46] && name != [46, 46]

/-- A regular file the walk came to, by the names that lead to it. -/
structure Found where
  names : List Bytes
  state : FileState
  deriving DecidableEq, Repr

def Found.path (f : Found) : Bytes := join slash f.names

/-- The entries of the directory `dir`; `descend` walks one of its directories.  Along goes `visited_dirs`. -/
def walkEntries (opt : IndexOptions) (descend : List Bytes → Nat → List Nat → List Found × List Nat) (dir : List Bytes) :
    List DirEntry → List Nat → List Found × List Nat
  | [], visited => ([], visited)
  | e :: es, visited =>
    if !opt.includeHidden && hidden e.name then walkEntries opt descend dir es visited
    else if !opt.followSymlinks && e.link then walkEntries opt descend dir es visited
    else
      match e.target with
      | .other => walkEntries opt descend dir es visited
      | .file s =>
        let rest := walkEntries opt descend dir es visited
        (⟨dir ++ [e.name], s⟩ :: rest.1, rest.2)
      | .dir d =>
        if opt.followSymlinks && visited.contains d then walkEntries opt descend dir es visited
        else
          let below := descend (dir ++ [e.name]) d (if opt.followSymlinks then d :: visited else visited)
          let rest := walkEntries opt descend dir es below.2
          (below.1 ++ rest.1, rest.2)

def walkDir (t : Tree) (opt : IndexOptions) : Nat → List Bytes → Nat → List Nat → List Found × List Nat
  | 0, _, _, visited => ([], visited)
  | fuel + 1, dir, d, visited => walkEntries opt (walkDir t opt fuel) dir (t.entries d) visited

/-- The regular files, in the order the iterator comes to them; no path has more directories than there are. -/
def walk (t : Tree) (opt : IndexOptions) : List Found :=
  (walkDir t opt t.dirs.length [] 0 (if opt.followSymlinks then [0] else [])).1

def statFrom (t : Tree) : Nat → List Bytes → Option FileState
  | _, [] => none
  | d, n :: ns =>
    match (t.entries d).find? (fun e => e.name == n) with
    | none => none
    | some e =>
      match e.target, ns with
      | .file s, [] => some s
      | .dir d', _ :: _ => statFrom t d' ns
      | _, _ => none

def stat (t : Tree) (path : Bytes) : Option FileState := statFrom t 0 (path.splitOn slash)

/-! ## What is found -/

theorem Tree.entries_names_ok (t : Tree) (d : Nat) : ∀ e ∈ t.entries d, IsName slash e.name := by
  unfold Tree.entries
  intro e he
  rw [List.getD_eq_getElem?_getD] at he
  cases hd : t.dirs[d]? with
  | none =>
    rw [hd] at he
    cases he
  | some es =>
    rw [hd] at he
    exact t.names_ok es (List.mem_of_getElem? hd) e he

theorem Tree.entries_names_nodup (t : Tree) (d : Nat) : ((t.entries d).map DirEntry.name).Nodup := by
  unfold Tree.entries
  rw [List.getD_eq_getElem?_getD]
  cases hd : t.dirs[d]? with
  | none => exact List.nodup_nil
  | some es => exact t.names_nodup es (List.mem_of_getElem? hd)

/-- What a walk below `dir` gives: names below it that lead to the file, no two alike. -/
structure Below (t : Tree) (d : Nat) (dir : List Bytes) (fs : List Found) : Prop where
  reach : ∀ f ∈ fs, ∃ ns, f.names = dir ++ ns ∧ (∀ n ∈ ns, IsName slash n) ∧ statFrom t d ns = some f.state
  nodup : (fs.map Found.names).Nodup

/-- What a walk of some entries of a directory gives: each file is found through one of them. -/
structure Through (t : Tree) (d : Nat) (dir : List Bytes) (es : List DirEntry) (fs : List Found) : Prop where
  reach : ∀ f ∈ fs, ∃ e ∈ es, ∃ ns, f.names = dir ++ e.name :: ns ∧ (∀ n ∈ e.name :: ns, IsName slash n) ∧
    statFrom t d (e.name :: ns) = some f.state
  nodup : (fs.map Found.names).Nodup

theorem Through.cons {t : Tree} {d : Nat} {dir : List Bytes} {e : DirEntry} {es : List DirEntry} {fs : List Found}
    (h : Through t d dir es fs) : Through t d dir (e :: es) fs :=
  ⟨fun f hf => by
    obtain ⟨e', he', h'⟩ := h.reach f hf
    exact ⟨e', List.mem_cons_of_mem _ he', h'⟩, h.nodup⟩

theorem Through.append {t : Tree} {d : Nat} {dir : List Bytes} {e : DirEntry} {es : List DirEntry} {fs gs : List Found}
    (hne : e.name ∉ es.map DirEntry.name) (hf : Through t d dir [e] fs) (hg : Through t d dir es gs) :
    Through t d dir (e :: es) (fs ++ gs) := by
  refine ⟨fun f h => ?_, ?_⟩
  · rcases List.mem_append.1 h with h | h
    · obtain ⟨e', he', h'⟩ := hf.reach f h
      exact ⟨e', by rw [List.mem_singleton.1 he']; exact List.mem_cons_self, h'⟩
    · exact hg.cons.reach f h
  · rw [List.map_append, List.nodup_append]
    refine ⟨hf.nodup, hg.nodup, fun a ha b hb hab => ?_⟩
    obtain ⟨f, hfm, rfl⟩ := List.mem_map.1 ha
    obtain ⟨g, hgm, rfl⟩ := List.mem_map.1 hb
    obtain ⟨e₁, h1, ns, hn1, -⟩ := hf.reach f hfm
    obtain ⟨e₂, h2, ms, hn2, -⟩ := hg.reach g hgm
    rw [hn1, hn2, List.append_cancel_left_eq, List.cons.injEq, List.mem_singleton.1 h1] at hab
    exact hne (hab.1 ▸ List.mem_map_of_mem h2)

theorem find?_entry {t : Tree} {d : Nat} {e : DirEntry} (he : e ∈ t.entries d) :
    (t.entries d).find? (fun x => x.name == e.name) = some e := by
  have hnd := t.entries_names_nodup d
  generalize t.entries d = es at he hnd
  induction es with
  | nil => cases he
  | cons x es ih =>
    rw [List.map_cons, List.nodup_cons] at hnd
    rw [List.find?_cons]
    rcases List.mem_cons.1 he with rfl | he
    · simp
    · have hne : x.name ≠ e.name := fun h => hnd.1 (h ▸ List.mem_map_of_mem he)
      rw [show (x.name == e.name) = false by simpa using hne]
      exact ih he hnd.2

theorem walkEntries_through {t : Tree} (opt : IndexOptions)
    {descend : List Bytes → Nat → List Nat → List Found × List Nat} (d : Nat) (dir : List Bytes)
    (hdesc : ∀ dir d v, Below t d dir (descend dir d v).1) :
    ∀ (es : List DirEntry) (visited : List Nat), (∀ e ∈ es, e ∈ t.entries d) → (es.map DirEntry.name).Nodup →
      Through t d dir es (walkEntries opt descend dir es visited).1
  | [], _, _, _ => ⟨fun _ hf => (by cases hf), List.nodup_nil⟩
  | e :: es, visited, hes, hnd => by
    have hrest : ∀ v, Through t d dir es (walkEntries opt descend dir es v).1 := fun v =>
      walkEntries_through opt d dir hdesc es v (fun x hx => hes x (List.mem_cons_of_mem _ hx)) (List.nodup_cons.1 hnd).2
    have hne : e.name ∉ es.map DirEntry.name := (List.nodup_cons.1 hnd).1
    have hfind := find?_entry (hes e List.mem_cons_self)
    have hok := t.entries_names_ok d e (hes e List.mem_cons_self)
    rw [walkEntries]
    split
    · exact (hrest visited).cons
    split
    · exact (hrest visited).cons
    split
    · exact (hrest visited).cons
    · rename_i s hs
      refine @Through.append t d dir e es [⟨dir ++ [e.name], s⟩] _ hne ⟨fun f hf => ?_, List.nodup_singleton _⟩ (hrest visited)
      obtain rfl := List.mem_singleton.1 hf
      refine ⟨e, List.mem_singleton_self e, [], rfl, fun n hn => by rwa [List.mem_singleton.1 hn], ?_⟩
      rw [statFrom, hfind]
      simp only [hs]
    · rename_i d' hd'
      split
      · exact (hrest visited).cons
      · refine Through.append hne ⟨fun f hf => ?_, (hdesc _ _ _).nodup⟩ (hrest _)
        obtain ⟨ns, hn, hns, hst⟩ := (hdesc _ _ _).reach f hf
        refine ⟨e, List.mem_singleton_self e, ns, by rw [hn, List.append_assoc]; rfl, ?_, ?_⟩
        · exact fun n hm => (List.mem_cons.1 hm).elim (fun h => by rwa [h]) (hns n)
        · rw [statFrom, hfind]
          cases ns with
          | nil => cases hst
          | cons m ms => simpa only [hd'] using hst

theorem walkDir_below (t : Tree) (opt : IndexOptions) : ∀ (fuel : Nat) (dir : List Bytes) (d : Nat) (v : List Nat),
    Below t d dir (walkDir t opt fuel dir d v).1
  | 0, _, _, _ => ⟨fun _ hf => (by cases hf), List.nodup_nil⟩
  | fuel + 1, dir, d, v => by
    have h := walkEntries_through opt d dir (walkDir_below t opt fuel) (t.entries d) v (fun _ he => he)
      (t.entries_names_nodup d)
    refine ⟨fun f hf => ?_, h.nodup⟩
    obtain ⟨e, -, ns, hn⟩ := h.reach f hf
    exact ⟨e.name :: ns, hn⟩

section
variable (t : Tree) (opt : IndexOptions)

theorem walk_names_ok {f : Found} (hf : f ∈ walk t opt) : f.names ≠ [] ∧ ∀ n ∈ f.names, IsName slash n := by
  obtain ⟨ns, hn, hns, hst⟩ := (walkDir_below t opt _ _ _ _).reach f hf
  rw [hn, List.nil_append]
  refine ⟨fun h => ?_, hns⟩
  rw [h] at hst
  cases hst

/-- **What a walk found is found again by its path.** -/
theorem stat_of_mem_walk {f : Found} (hf : f ∈ walk t opt) : stat t f.path = some f.state := by
  obtain ⟨h1, h2⟩ := walk_names_ok t opt hf
  obtain ⟨ns, hn, -, hst⟩ := (walkDir_below t opt _ _ _ _).reach f hf
  rw [stat, Found.path, PathOrder.splitOn_join h1 h2, hn, List.nil_append]
  exact hst

/-- **No file is found twice by the same names.** -/
theorem walk_nodup : ((walk t opt).map Found.names).Nodup := (walkDir_below t opt _ _ _ _).nodup

theorem path_injOn {f g : Found} (hf : f ∈ walk t opt) (hg : g ∈ walk t opt) (h : f.path = g.path) : f.names = g.names := by
  obtain ⟨f1, f2⟩ := walk_names_ok t opt hf
  obtain ⟨g1, g2⟩ := walk_names_ok t opt hg
  rw [← PathOrder.splitOn_join f1 f2, ← PathOrder.splitOn_join g1 g2]
  exact congrArg _ h

end

end Pergrep
