import DecisionWalk.Disk.Basic

/-!
# File trees

A file tree is a disk as a value: a map from places, which are lists of names
below the root, to what is there. Paths that do not begin at the root begin at
the working directory. Besides files and directories there are two devices, of
which one reads as empty and takes everything and the other one is always full,
and a directory in which nothing can be created.
-/

set_option autoImplicit false

namespace DecisionWalk

inductive Entry where
  | file (bytes : Bytes)
  | dir
  | sealedDir
  | emptyDevice
  | fullDevice
  deriving DecidableEq, Repr

def Entry.isDir : Entry → Bool
  | .dir | .sealedDir => true
  | _ => false

abbrev Place := List String

structure FileTree where
  base : Place
  entries : List (Place × Entry)
  deriving DecidableEq, Repr

namespace FileTree

def systemDirs : List Place :=
  [["bin"], ["boot"], ["dev"], ["dev", "pts"], ["dev", "shm"], ["etc"], ["home"], ["lib"],
    ["lib64"], ["media"], ["mnt"], ["opt"], ["root"], ["run"], ["sbin"], ["srv"], ["sys"], ["tmp"],
    ["usr"], ["usr", "bin"], ["usr", "lib"], ["usr", "local"], ["usr", "sbin"], ["usr", "share"],
    ["var"], ["var", "cache"], ["var", "lib"], ["var", "log"], ["var", "tmp"]]

def empty : FileTree where
  base := ["tmp", "work"]
  entries := systemDirs.map (·, .dir) ++
    [(["proc"], .sealedDir), (["dev", "null"], .emptyDevice), (["dev", "full"], .fullDevice),
      (["tmp", "work"], .dir)]

def find? (t : FileTree) (p : Place) : Option Entry :=
  if p.isEmpty then some .dir else t.entries.lookup p

def assign (p : Place) (e : Entry) : List (Place × Entry) → List (Place × Entry)
  | [] => [(p, e)]
  | (q, old) :: rest => if q = p then (q, e) :: rest else (q, old) :: assign p e rest

def set (t : FileTree) (p : Place) (e : Entry) : FileTree :=
  { t with entries := assign p e t.entries }

def nameLimit : Nat := 255

def pathLimit : Nat := 4096

def fits (name : String) : Bool := name.utf8ByteSize ≤ nameLimit

/-- Follows names from a place. Every place on the way must be a directory; the last one may
be missing. The root lies above itself. -/
def follow (t : FileTree) (at_ : Place) : List String → Except DiskError Place
  | [] => .ok at_
  | name :: rest =>
    match t.find? at_ with
    | none => .error .notFound
    | some e =>
      if !e.isDir then .error .notADirectory
      else if name = "" ∨ name = "." then t.follow at_ rest
      else if name = ".." then t.follow at_.dropLast rest
      else if e = .sealedDir then .error .notFound
      else if fits name then t.follow (at_ ++ [name]) rest
      else .error .nameTooLong

def names (path : String) : Except DiskError (List String) :=
  if path.toList.any (·.toNat = 0) then .error .zeroInName
  else if path.isEmpty then .error .notFound
  else if pathLimit ≤ path.utf8ByteSize then .error .nameTooLong
  else .ok (Disk.namesOf path)

def start (t : FileTree) (path : String) : Place := if path.startsWith "/" then [] else t.base

def resolve (t : FileTree) (path : String) : Except DiskError Place := do
  t.follow (t.start path) (← names path)

def lookup? (t : FileTree) (path : String) : Option Entry :=
  match t.resolve path with
  | .ok p => t.find? p
  | .error _ => none

def read (t : FileTree) (path : String) : Except DiskError Bytes := do
  let p ← t.resolve path
  match t.find? p with
  | none => .error .notFound
  | some .dir | some .sealedDir => .error .isADirectory
  | some (.file bytes) => .ok bytes
  | some .emptyDevice => .ok []
  | some .fullDevice => .error (.other "Cannot allocate memory (os error 12)")

structure Site where
  dir : Place
  name : String
  slashed : Bool
  deriving DecidableEq, Repr

namespace Site

def place (s : Site) : Place := s.dir ++ [s.name]

def isDots (s : Site) : Bool := s.name == "" || s.name == "." || s.name == ".."

end Site

def site (t : FileTree) (path : String) : Except DiskError Site := do
  let back := (← names path).reverse
  let kept := back.dropWhile (· = "")
  -- An empty name at the end makes sure of a directory.
  let dir ← t.follow (t.start path) (kept.tail.reverse ++ [""])
  .ok ⟨dir, kept.headD "", decide (kept.length < back.length)⟩

def write (t : FileTree) (path : String) (bytes : Bytes) : Except DiskError FileTree := do
  let s ← t.site path
  if s.isDots ∨ s.slashed then .error .isADirectory
  else if t.find? s.dir = some .sealedDir then .error .notFound
  else if !fits s.name then .error .nameTooLong
  else match t.find? s.place with
    | some .dir | some .sealedDir => .error .isADirectory
    | some .emptyDevice => .ok t
    | some .fullDevice => if bytes.isEmpty then .ok t else .error .noSpace
    | some (.file _) | none => .ok (t.set s.place (.file bytes))

def makeDir (t : FileTree) (path : String) : Except DiskError FileTree := do
  let s ← t.site path
  if s.isDots then .error .alreadyExists
  else if t.find? s.dir = some .sealedDir then .error .notFound
  else if !fits s.name then .error .nameTooLong
  else match t.find? s.place with
    | some _ => .error .alreadyExists
    | none => .ok (t.set s.place .dir)

def isFile (t : FileTree) (path : String) : Bool :=
  match t.lookup? path with
  | some (.file _) => true
  | _ => false

def isDir (t : FileTree) (path : String) : Bool := (t.lookup? path).any Entry.isDir

def namesIn (t : FileTree) (p : Place) : List String :=
  t.entries.filterMap fun (q, _) => if q.dropLast = p then q.getLast? else none

def children (t : FileTree) (path : String) : Except DiskError (List String) := do
  let p ← t.resolve path
  match t.find? p with
  | none => .error .notFound
  | some e => if e.isDir then .ok (t.namesIn p) else .error .notADirectory

def changed (old new : FileTree) : List (String × Bytes) :=
  new.entries.filterMap fun (p, e) =>
    match e with
    | .file bytes =>
      if new.base.isPrefixOf p ∧ old.find? p ≠ some e then
        some (String.intercalate "/" (p.drop new.base.length), bytes)
      else none
    | _ => none

end FileTree

def tryUpdate (f : FileTree → Except DiskError FileTree) :
    StateM FileTree (Except DiskError Unit) :=
  fun t => match f t with
    | .ok t => (.ok (), t)
    | .error e => (.error e, t)

instance : Disk (StateM FileTree) where
  read path := do pure ((← get).read path)
  write path bytes := tryUpdate (·.write path bytes)
  makeDir path := tryUpdate (·.makeDir path)
  isFile path := do pure ((← get).isFile path)
  isDir path := do pure ((← get).isDir path)
  holds path := do pure ((← get).lookup? path).isSome
  children path := do pure ((← get).children path)

namespace FileTree

def plantDir (t : FileTree) (path : String) : FileTree :=
  (StateT.run (Disk.createDirs path : StateM FileTree _) t).2

def plant (t : FileTree) (path : String) (bytes : Bytes) : FileTree :=
  let t := ((Disk.leadingTo path).head?.map t.plantDir).getD t
  (t.write path bytes).toOption.getD t

end FileTree

end DecisionWalk
