import DecisionWalk.Corpus.Seeds
import DecisionWalk.Proofs.Paths
import DecisionWalk.Proofs.Tasks

/-!
# Journals of what is written

A journal is a file tree that remembers where it was written to, and what. It is
a disk itself, and whatever runs on it runs on the tree alike.
-/

set_option autoImplicit false

namespace DecisionWalk

structure Journal where
  tree : FileTree
  writes : List (Place × Bytes)

namespace Journal

def write (j : Journal) (path : String) (bytes : Bytes) : Except DiskError Journal := do
  let s ← j.tree.site path
  let tree ← j.tree.write path bytes
  .ok ⟨tree, (s.place, bytes) :: j.writes⟩

def makeDir (j : Journal) (path : String) : Except DiskError Journal := do
  let tree ← j.tree.makeDir path
  .ok { j with tree := tree }

def tryChange (f : Journal → Except DiskError Journal) : StateM Journal (Except DiskError Unit) :=
  fun j => match f j with
    | .ok j => (.ok (), j)
    | .error e => (.error e, j)

end Journal

instance : Disk (StateM Journal) where
  read path := do pure ((← get).tree.read path)
  write path bytes := Journal.tryChange (·.write path bytes)
  makeDir path := Journal.tryChange (·.makeDir path)
  isFile path := do pure ((← get).tree.isFile path)
  isDir path := do pure ((← get).tree.isDir path)
  holds path := do pure ((← get).tree.lookup? path).isSome
  children path := do pure ((← get).tree.children path)

variable {α β γ : Type}

def Echoes (view : Journal → γ) (x : StateM Journal α) (y : StateM FileTree α) : Prop :=
  ∀ j, (x.run j).1 = (y.run j.tree).1 ∧ (x.run j).2.tree = (y.run j.tree).2 ∧
    view (x.run j).2 = view j

namespace Echoes

variable {view : Journal → γ} {x : StateM Journal α} {y : StateM FileTree α}

theorem pure (a : α) : Echoes view (pure a) (Pure.pure a) := fun _ => ⟨rfl, rfl, rfl⟩

theorem bind {f : α → StateM Journal β} {g : α → StateM FileTree β} (hx : Echoes view x y)
    (hf : ∀ a, Echoes view (f a) (g a)) : Echoes view (x >>= f) (y >>= g) := by
  intro j
  obtain ⟨hresult, htree, hview⟩ := hx j
  obtain ⟨hresult', htree', hview'⟩ := hf (x.run j).1 (x.run j).2
  have hx' : (x >>= f).run j = (f (x.run j).1).run (x.run j).2 := rfl
  have hy' : (y >>= g).run j.tree = (g (y.run j.tree).1).run (y.run j.tree).2 := rfl
  rw [hx', hy', ← hresult, ← htree]
  exact ⟨hresult', htree', hview'.trans hview⟩

theorem ite {c : Prop} [Decidable c] {x' : StateM Journal α} {y' : StateM FileTree α}
    (hx : Echoes view x y) (hx' : Echoes view x' y') :
    Echoes view (if c then x else x') (if c then y else y') := by
  split
  · exact hx
  · exact hx'

section Disks

variable (view) (path : String)

theorem read : Echoes view (Disk.read path) (Disk.read path) := fun _ => ⟨rfl, rfl, rfl⟩

theorem isFile : Echoes view (Disk.isFile path) (Disk.isFile path) := fun _ => ⟨rfl, rfl, rfl⟩

theorem isDir : Echoes view (Disk.isDir path) (Disk.isDir path) := fun _ => ⟨rfl, rfl, rfl⟩

theorem holds : Echoes view (Disk.holds path) (Disk.holds path) := fun _ => ⟨rfl, rfl, rfl⟩

theorem children : Echoes view (Disk.children path) (Disk.children path) :=
  fun _ => ⟨rfl, rfl, rfl⟩

theorem write (path : String) (bytes : Bytes) :
    Echoes (fun _ => ()) (Disk.write path bytes) (Disk.write path bytes) := by
  intro j
  show (Journal.tryChange (·.write path bytes) j).1 = (tryUpdate (·.write path bytes) j.tree).1 ∧
    (Journal.tryChange (·.write path bytes) j).2.tree =
      (tryUpdate (·.write path bytes) j.tree).2 ∧ () = ()
  simp only [Journal.tryChange, tryUpdate, Journal.write]
  cases hs : j.tree.site path with
  | error e =>
    have hw : j.tree.write path bytes = .error e := by
      rw [FileTree.write, hs]
      rfl
    rw [hw]
    exact ⟨rfl, rfl, trivial⟩
  | ok s => cases j.tree.write path bytes <;> exact ⟨rfl, rfl, trivial⟩

theorem makeDir {view : Journal → γ}
    (hview : ∀ (j : Journal) tree, view { j with tree := tree } = view j) (path : String) :
    Echoes view (Disk.makeDir path) (Disk.makeDir path) := by
  intro j
  show (Journal.tryChange (·.makeDir path) j).1 = (tryUpdate (·.makeDir path) j.tree).1 ∧
    (Journal.tryChange (·.makeDir path) j).2.tree = (tryUpdate (·.makeDir path) j.tree).2 ∧
      view (Journal.tryChange (·.makeDir path) j).2 = view j
  simp only [Journal.tryChange, tryUpdate, Journal.makeDir]
  cases j.tree.makeDir path with
  | error e => exact ⟨rfl, rfl, rfl⟩
  | ok tree => exact ⟨rfl, rfl, hview j tree⟩

end Disks

end Echoes

section Directories

variable {view : Journal → γ}

theorem ensureDir_echoes (hview : ∀ (j : Journal) tree, view { j with tree := tree } = view j)
    (path : String) : Echoes view (Disk.ensureDir path) (Disk.ensureDir path) := by
  refine (Echoes.makeDir hview path).bind fun result => ?_
  split
  · refine (Echoes.isDir view path).bind fun b => ?_
    split <;> exact .pure _
  · exact .pure _

theorem ensureDirs_echoes (hview : ∀ (j : Journal) tree, view { j with tree := tree } = view j)
    (paths : List String) : Echoes view (Disk.ensureDirs paths) (Disk.ensureDirs paths) := by
  induction paths with
  | nil => exact .pure _
  | cons path above ih =>
    refine (ensureDir_echoes hview path).bind fun result => ?_
    split
    · refine ih.bind fun made => ?_
      split
      · exact .pure _
      · exact ensureDir_echoes hview path
    · exact .pure _

theorem createDirs_echoes (hview : ∀ (j : Journal) tree, view { j with tree := tree } = view j)
    (path : String) : Echoes view (Disk.createDirs path) (Disk.createDirs path) :=
  .ite (.pure _) (ensureDirs_echoes hview _)

end Directories

section Seeds

variable {K : Type} [DecidableEq K] (view : Journal → γ) (g : Grammar K Unit) (limits : Limits)

theorem loadSeed_echoes (c : Corpus K) (path : String) :
    Echoes view (c.loadSeed g limits path) (c.loadSeed g limits path) := by
  refine (Echoes.read view path).bind fun result => ?_
  split
  · exact .pure _
  · split <;> exact .pure _

theorem loadFiles_echoes (paths : List String) (count : Nat) (c : Corpus K) :
    Echoes view (Corpus.loadFiles g limits paths count c)
      (Corpus.loadFiles g limits paths count c) := by
  induction paths generalizing count c with
  | nil => exact .pure _
  | cons path rest ih =>
    refine (Echoes.isFile view path).bind fun b => .ite ?_ (ih count c)
    refine (loadSeed_echoes view g limits c path).bind fun result => ?_
    split
    · exact .pure _
    · exact ih _ _

theorem seedFiles_echoes (path : String) :
    Echoes view (Corpus.seedFiles path) (Corpus.seedFiles path) := by
  refine (Echoes.isFile view path).bind fun b => .ite (.pure _) ?_
  refine (Echoes.isDir view path).bind fun b => .ite ?_ (.pure _)
  refine (Echoes.children view path).bind fun result => ?_
  split <;> exact .pure _

theorem loadSeeds_echoes (paths : List String) (count : Nat) (c : Corpus K) :
    Echoes view (Corpus.loadSeeds g limits paths count c)
      (Corpus.loadSeeds g limits paths count c) := by
  induction paths generalizing count c with
  | nil => exact .pure _
  | cons path rest ih =>
    refine (seedFiles_echoes view path).bind fun result => ?_
    split
    · exact .pure _
    · refine (loadFiles_echoes view g limits _ count c).bind fun result => ?_
      split
      · exact .pure _
      · exact ih _ _

end Seeds

namespace Command

def Retells (view : Journal → γ) (x : Task (StateM Journal) α) (y : Task (StateM FileTree) α) :
    Prop :=
  ∀ out j, (after x out j).1 = (after y out j.tree).1 ∧
    (after x out j).2.tree = (after y out j.tree).2 ∧ view (after x out j).2 = view j

namespace Retells

variable {view : Journal → γ}

theorem pure (a : α) : Retells view (pure a) (Pure.pure a) := fun _ _ => ⟨rfl, rfl, rfl⟩

theorem throw (e : Failure) :
    Retells view (MonadExcept.throw e : Task (StateM Journal) α) (MonadExcept.throw e) :=
  fun _ _ => ⟨rfl, rfl, rfl⟩

theorem bind {x : Task (StateM Journal) α} {y : Task (StateM FileTree) α}
    {f : α → Task (StateM Journal) β} {g : α → Task (StateM FileTree) β} (hx : Retells view x y)
    (hf : ∀ a, Retells view (f a) (g a)) : Retells view (x >>= f) (y >>= g) := by
  intro out j
  have hstep := hx out j
  rw [after_bind, after_bind]
  generalize after x out j = u at hstep ⊢
  generalize after y out j.tree = v at hstep ⊢
  obtain ⟨⟨r, out'⟩, j'⟩ := u
  obtain ⟨⟨r', out''⟩, tree⟩ := v
  obtain ⟨hresult, htree, hview⟩ := hstep
  cases hresult
  cases htree
  cases r with
  | error e => exact ⟨rfl, rfl, hview⟩
  | ok a =>
    obtain ⟨hresult', htree', hview'⟩ := hf a out' j'
    exact ⟨hresult', htree', hview'.trans hview⟩

theorem lift {x : StateM Journal α} {y : StateM FileTree α} (h : Echoes view x y) :
    Retells view (x : Task (StateM Journal) α) (y : Task (StateM FileTree) α) := by
  intro out j
  obtain ⟨hresult, htree, hview⟩ := h j
  rw [after_lift, after_lift, hresult, htree]
  exact ⟨rfl, rfl, hview⟩

theorem orFail {x : StateM Journal (Except DiskError α)} {y : StateM FileTree (Except DiskError α)}
    (h : Echoes view x y) (failure : DiskError → Failure) :
    Retells view (orFail x failure) (orFail y failure) := by
  refine (lift h).bind fun r => ?_
  cases r with
  | ok a => exact .pure a
  | error e => exact .throw _

theorem say (text : String) : Retells view (say text) (say text) := fun _ _ => ⟨rfl, rfl, rfl⟩

end Retells

end Command

end DecisionWalk
