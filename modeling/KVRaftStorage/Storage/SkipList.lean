import KVRaftStorage.Support.LinkedList
import KVRaftStorage.Support.OrderedMap
import Mathlib.Logic.Function.Basic

/-!
# The skip list

`skipList.h` with its nodes in a memory of numbered cells.  Reading through a
null or dangling pointer, and reading or writing an array outside its bounds,
gives `none`; so does a loop that would not end.  A function of the file that
returns `some` has done neither.

The number of odd results of `std::rand` at an insertion is an argument, and
the text archive of a dump is the dump.
-/

namespace KVRaftStorage

structure Node (K V : Type) where
  key : K
  value : V
  nodeLevel : ℕ
  forward : List (Option ℕ)

def Node.new {K V : Type} (key : K) (value : V) (level : ℕ) : Node K V where
  key := key
  value := value
  nodeLevel := level
  forward := List.replicate (level + 1) none

structure SkipListDump (K V : Type) where
  keyDumpVt : List K
  valDumpVt : List V

structure SkipList (K V : Type) where
  maxLevel : ℕ
  skipListLevel : ℕ
  header : ℕ
  elementCount : ℤ
  memory : ℕ → Option (Node K V)
  /-- No cell from here on has been allocated. -/
  free : ℕ

namespace SkipList

variable {K V : Type}

/-- `SkipList::SkipList`, with the header in cell 0. -/
def new [Inhabited K] [Inhabited V] (maxLevel : ℕ) : SkipList K V where
  maxLevel := maxLevel
  skipListLevel := 0
  header := 0
  elementCount := 0
  memory := Function.update (fun _ => none) 0
    (some (Node.new default default maxLevel))
  free := 1

/-! ## Memory -/

/-- `a->forward[i]`. -/
def forward (memory : ℕ → Option (Node K V)) (a i : ℕ) :
    Option (Option ℕ) := do
  (← memory a).forward[i]?

/-- `a->forward[i] = p`. -/
def setForward (memory : ℕ → Option (Node K V)) (a i : ℕ) (p : Option ℕ) :
    Option (ℕ → Option (Node K V)) := do
  let node ← memory a
  if i < node.forward.length then
    some (Function.update memory a
      (some { node with forward := node.forward.set i p }))
  else none

/-- `delete a`. -/
def delete (memory : ℕ → Option (Node K V)) (a : ℕ) :
    Option (ℕ → Option (Node K V)) := do
  let _ ← memory a
  some (Function.update memory a none)

/-- `a->get_key() < key`. -/
def keyBelow [LinearOrder K] (memory : ℕ → Option (Node K V)) (key : K)
    (a : ℕ) : Option Bool := do
  some ((← memory a).key < key)

/-- `current != nullptr && current->get_key() == key`. -/
def holdsKey [LinearOrder K] (memory : ℕ → Option (Node K V)) (key : K)
    (current : Option ℕ) : Option Bool :=
  match current with
  | none => some false
  | some a => do some ((← memory a).key = key)

variable [LinearOrder K]

/-! ## Looking for a key -/

/-- The `while` loop of level `i`. -/
def advance (s : SkipList K V) (key : K) (i current : ℕ) : Option ℕ :=
  LinkedList.advance (forward s.memory · i) (keyBelow s.memory key) s.free
    current

/-- The `for` loop over the levels down from `i` in `search_element`. -/
def descend (s : SkipList K V) (key : K) : ℕ → ℕ → Option ℕ
  | 0, current => s.advance key 0 current
  | i + 1, current => do s.descend key i (← s.advance key (i + 1) current)

/-- `update[i] = a`. -/
def setUpdate (update : List (Option ℕ)) (i a : ℕ) :
    Option (List (Option ℕ)) :=
  if i < update.length then some (update.set i (some a)) else none

/-- The same loop in the functions that keep `update`. -/
def descendUpdate (s : SkipList K V) (key : K) :
    ℕ → ℕ → List (Option ℕ) → Option (ℕ × List (Option ℕ))
  | 0, current, update => do
      let current ← s.advance key 0 current
      some (current, ← setUpdate update 0 current)
  | i + 1, current, update => do
      let current ← s.advance key (i + 1) current
      s.descendUpdate key i current (← setUpdate update (i + 1) current)

/-- `std::vector<Node<K, V>*> update(_max_level + 1, nullptr)`. -/
def noUpdate (s : SkipList K V) : List (Option ℕ) :=
  List.replicate (s.maxLevel + 1) none

/-- `search_element`: the value, or `none` for `false`. -/
def searchElement (s : SkipList K V) (key : K) : Option (Option V) := do
  let current ← s.descend key s.skipListLevel s.header
  match ← forward s.memory current 0 with
  | none => some none
  | some a => do
      let node ← s.memory a
      some (if node.key = key then some node.value else none)

/-! ## Insertion -/

/-- `get_random_level` when `std::rand` is odd `flips` times. -/
def getRandomLevel (s : SkipList K V) (flips : ℕ) : ℕ :=
  let level := 1 + flips
  if level < s.maxLevel then level else s.maxLevel

/-- `update[i] = _header` for the levels in `is`. -/
def raise (s : SkipList K V) :
    List ℕ → List (Option ℕ) → Option (List (Option ℕ))
  | [], update => some update
  | i :: is, update => do s.raise is (← setUpdate update i s.header)

/-- Put the new node behind `update[i]` on the levels in `is`. -/
def link (update : List (Option ℕ)) (insertedNode : ℕ) :
    List ℕ → (ℕ → Option (Node K V)) → Option (ℕ → Option (Node K V))
  | [], memory => some memory
  | i :: is, memory => do
      let u ← (update[i]?).join
      let memory ← setForward memory insertedNode i (← forward memory u i)
      let memory ← setForward memory u i (some insertedNode)
      link update insertedNode is memory

def insertElementLocked (s : SkipList K V) (key : K) (value : V)
    (flips : ℕ) : Option (SkipList K V × ℤ) := do
  let (current, update) ←
    s.descendUpdate key s.skipListLevel s.header s.noUpdate
  let current ← forward s.memory current 0
  if ← holdsKey s.memory key current then
    return (s, 1)
  let randomLevel := s.getRandomLevel flips
  let update ← s.raise
    (List.range' (s.skipListLevel + 1) (randomLevel - s.skipListLevel)) update
  let insertedNode := s.free
  let memory ← link update insertedNode (List.range (randomLevel + 1))
    (Function.update s.memory insertedNode
      (some (Node.new key value randomLevel)))
  return ({ s with
    skipListLevel :=
      if s.skipListLevel < randomLevel then randomLevel else s.skipListLevel
    elementCount := s.elementCount + 1
    memory := memory
    free := s.free + 1 }, 0)

def insertElement (s : SkipList K V) (key : K) (value : V) (flips : ℕ) :
    Option (SkipList K V × ℤ) :=
  s.insertElementLocked key value flips

/-! ## Deletion -/

/-- Take `current` out on the levels in `is`, up to the first level on which
`update[i]` does not point to it. -/
def unlink (update : List (Option ℕ)) (current : ℕ) :
    List ℕ → (ℕ → Option (Node K V)) → Option (ℕ → Option (Node K V))
  | [], memory => some memory
  | i :: is, memory => do
      let u ← (update[i]?).join
      if (← forward memory u i) ≠ some current then
        return memory
      let memory ← setForward memory u i (← forward memory current i)
      unlink update current is memory

/-- Lower `_skip_list_level` while the header points to nothing there. -/
def lowerLevel (memory : ℕ → Option (Node K V)) (header : ℕ) :
    ℕ → Option ℕ
  | 0 => some 0
  | level + 1 => do
      if (← forward memory header (level + 1)) = none then
        lowerLevel memory header level
      else some (level + 1)

def deleteElementLocked (s : SkipList K V) (key : K) :
    Option (SkipList K V × Bool) := do
  let (current, update) ←
    s.descendUpdate key s.skipListLevel s.header s.noUpdate
  match ← forward s.memory current 0 with
  | none => return (s, false)
  | some current =>
      if (← s.memory current).key ≠ key then
        return (s, false)
      let memory ←
        unlink update current (List.range (s.skipListLevel + 1)) s.memory
      let level ← lowerLevel memory s.header s.skipListLevel
      let memory ← delete memory current
      return ({ s with
        skipListLevel := level
        elementCount := s.elementCount - 1
        memory := memory }, true)

def deleteElement (s : SkipList K V) (key : K) : Option (SkipList K V) := do
  some (← s.deleteElementLocked key).1

def insertSetElement (s : SkipList K V) (key : K) (value : V) (flips : ℕ) :
    Option (SkipList K V) := do
  let (s, _) ← s.deleteElementLocked key
  some (← s.insertElementLocked key value flips).1

/-! ## Dumps -/

/-- The nodes of level `i` from the header on. -/
def chain (s : SkipList K V) (i : ℕ) : Option (List ℕ) := do
  LinkedList.collect (forward s.memory · i) s.free
    (← forward s.memory s.header i)

def dumpFile (s : SkipList K V) : Option (SkipListDump K V) := do
  let nodes ← (← s.chain 0).mapM s.memory
  some ⟨nodes.map (·.key), nodes.map (·.value)⟩

/-- `clear`: delete the node and all behind it, the last one first. -/
def clear : ℕ → ℕ → (ℕ → Option (Node K V)) → Option (ℕ → Option (Node K V))
  | 0, _, _ => none
  | fuel + 1, cur, memory => do
      match ← forward memory cur 0 with
      | none => delete memory cur
      | some next => do delete (← clear fuel next memory) cur

/-- `clear(_header->forward[0])`, if there is a node. -/
def clearNodes (s : SkipList K V) : Option (ℕ → Option (Node K V)) := do
  match ← forward s.memory s.header 0 with
  | none => some s.memory
  | some first => clear s.free first s.memory

/-- The links of the header on the levels in `is` become null. -/
def resetHeader (header : ℕ) :
    List ℕ → (ℕ → Option (Node K V)) → Option (ℕ → Option (Node K V))
  | [], memory => some memory
  | i :: is, memory => do
      resetHeader header is (← setForward memory header i none)

/-- Insert the entries of the dump with the numbers in `is`. -/
def insertDump (dumper : SkipListDump K V) (flips : ℕ → ℕ) :
    List ℕ → SkipList K V → Option (SkipList K V)
  | [], s => some s
  | i :: is, s => do
      let key ← dumper.keyDumpVt[i]?
      let value ← dumper.valDumpVt[i]?
      insertDump dumper flips is
        (← s.insertElementLocked key value (flips i)).1

/-- `load_file`; the empty string is `none`. -/
def loadFile (s : SkipList K V) (dumpStr : Option (SkipListDump K V))
    (flips : ℕ → ℕ) : Option (SkipList K V) := do
  let dumper := dumpStr.getD ⟨[], []⟩
  let memory ← resetHeader s.header (List.range (s.maxLevel + 1))
    (← s.clearNodes)
  insertDump dumper flips (List.range dumper.keyDumpVt.length)
    { s with skipListLevel := 0, elementCount := 0, memory := memory }

def size (s : SkipList K V) : ℤ := s.elementCount

end SkipList

end KVRaftStorage
