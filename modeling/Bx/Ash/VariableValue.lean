import Bx.Kit.BucketTable
import Bx.Kit.CString
import Bx.Kit.SortedList
import Bx.Kit.Memory

/-!
# The values of shell variables

`src/applets/shell/ash/variable_value.c`: a value is a scalar, an array sorted by index or a hash table by key. Its
strings are cells that it owns, in a memory that all values share. Which allocations succeed is up to each call.
-/

namespace Bx.Ash.VariableValue

open Bx.Kit

def sizeMax : Nat := 2 ^ 64 - 1

def elementSize : Nat := 16

abbrev Heap := Memory CStr

structure IndexedElement where
  index : Nat
  value : Nat

structure IndexedArray where
  elements : List IndexedElement := []
  capacity : Nat := 0

structure AssociativeElement where
  key : Nat
  value : Nat
  hash : UInt64

structure AssociativeArray where
  buckets : Buckets AssociativeElement := []
  count : Nat := 0

inductive Value
  | scalar (text : Option Nat)
  | indexed (array : IndexedArray)
  | associative (array : AssociativeArray)

structure SetEnv where
  copied : Bool := true
  grown : Bool := true
  firstResized : Bool := true
  resized : Bool := true
  itemAllocated : Bool := true
  keyCopied : Bool := true

variable (env : SetEnv) (array : AssociativeArray)

def valueDuplicate (copied : Bool) (mem : Heap) (text : Option CStr) : Heap × Option Nat :=
  match text with
  | none => (mem, none)
  | some text =>
    if text.length = sizeMax then (mem, none)
    else if copied then ((mem.alloc text).1, some (mem.alloc text).2)
    else (mem, none)

variable (mem : Heap)

def freeOption : Option Nat → Heap
  | none => mem
  | some a => mem.free a

/-! ## Indexed arrays -/

def indexedLowerBound (array : IndexedArray) (index : Nat) : Nat :=
  lowerBound (fun i => array.elements[i]?.any (·.index < index)) 0 array.elements.length

def indexedFind (array : IndexedArray) (index : Nat) : Option IndexedElement :=
  array.elements[indexedLowerBound array index]?.filter (·.index = index)

def indexedGet (array : IndexedArray) (index : Nat) : Option CStr :=
  (indexedFind array index).bind fun element => mem.read element.value

def grownCapacity (capacity : Nat) : Nat := if capacity = 0 then 4 else capacity * 2 % 2 ^ 64

def indexedReserve (array : IndexedArray) : Option IndexedArray :=
  if array.elements.length = array.capacity then
    let capacity := grownCapacity array.capacity
    if capacity < array.capacity ∨ capacity > sizeMax / elementSize then none
    else if env.grown then some { array with capacity := capacity }
    else none
  else some array

def indexedSet (array : IndexedArray) (index : Nat) (element : Option CStr) : Heap × IndexedArray × Bool :=
  let position := indexedLowerBound array index
  match valueDuplicate env.copied mem element with
  | (mem, none) => (mem, array, false)
  | (mem, some copy) =>
    match indexedFind array index with
    | some found =>
      (mem.free found.value, { array with elements := array.elements.set position { found with value := copy } }, true)
    | none =>
      match indexedReserve env array with
      | none => (mem.free copy, array, false)
      | some array =>
        let element := { index := index, value := copy }
        (mem, { array with elements := array.elements.take position ++ element :: array.elements.drop position }, true)

def indexedUnset (array : IndexedArray) (index : Nat) : Heap × IndexedArray × Bool :=
  match indexedFind array index with
  | none => (mem, array, false)
  | some found =>
    let position := indexedLowerBound array index
    (mem.free found.value, { array with elements := array.elements.eraseIdx position }, true)

/-! ## Associative arrays -/

def associativeHash (key : CStr) : UInt64 :=
  key.foldl (fun hash ch => (hash ^^^ ch.toNat.toUInt8.toUInt64) * 1099511628211) 1469598103934665603

abbrev AssociativeArray.bucketCount (array : AssociativeArray) : Nat := array.buckets.length

def AssociativeArray.chain (hash : UInt64) : List AssociativeElement :=
  (array.buckets[hash.toNat % array.bucketCount]?).getD []

def holdsKey (key : CStr) (item : AssociativeElement) : Bool :=
  item.hash = associativeHash key && mem.read item.key = some key

def associativeResize (allocated : Bool) (array : AssociativeArray) (count : Nat) : Option AssociativeArray :=
  if allocated then
    some { array with
      buckets := array.buckets.flatten.foldl
        (fun buckets item => buckets.modify (item.hash.toNat % count) (item :: ·))
        (List.replicate count []) }
  else none

def associativeFind (array : AssociativeArray) (key : CStr) : Option AssociativeElement :=
  if array.bucketCount = 0 then none
  else (array.chain (associativeHash key)).find? (holdsKey mem key)

def associativeGet (array : AssociativeArray) (key : CStr) : Option CStr :=
  (associativeFind mem array key).bind fun item => mem.read item.value

def associativeReserve : Option AssociativeArray :=
  match if array.bucketCount = 0 then associativeResize env.firstResized array 8 else some array with
  | none => none
  | some array =>
    if array.count ≥ array.bucketCount - array.bucketCount / 4 then
      if array.bucketCount > sizeMax / 2 then none
      else associativeResize env.resized array (array.bucketCount * 2)
    else some array

def setValue (holds : AssociativeElement → Bool) (copy : Nat) : List AssociativeElement → List AssociativeElement
  | [] => []
  | item :: next => if holds item then { item with value := copy } :: next else item :: setValue holds copy next

def associativeInsert (array : AssociativeArray) (key : CStr) (copy : Nat) : Heap × AssociativeArray × Bool :=
  match env.itemAllocated, valueDuplicate env.keyCopied mem (some key) with
  | true, (mem, some keyCopy) =>
    let item := { key := keyCopy, value := copy, hash := associativeHash key }
    let bucket := (associativeHash key).toNat % array.bucketCount
    (mem, { buckets := array.buckets.modify bucket (item :: ·), count := array.count + 1 }, true)
  | _, (mem, keyCopy) => ((freeOption mem keyCopy).free copy, array, false)

def associativeSet (array : AssociativeArray) (key : CStr) (element : Option CStr) : Heap × AssociativeArray × Bool :=
  if key = [] then (mem, array, false)
  else
    match valueDuplicate env.copied mem element with
    | (mem', none) => (mem', array, false)
    | (mem', some copy) =>
      match associativeFind mem array key with
      | some item =>
        let bucket := (associativeHash key).toNat % array.bucketCount
        (mem'.free item.value,
          { array with buckets := array.buckets.modify bucket (setValue (holdsKey mem key) copy) }, true)
      | none =>
        match associativeReserve env array with
        | none => (mem'.free copy, array, false)
        | some array => associativeInsert env mem' array key copy

def associativeUnset (array : AssociativeArray) (key : CStr) : Heap × AssociativeArray × Bool :=
  match associativeFind mem array key with
  | none => (mem, array, false)
  | some item =>
    let bucket := (associativeHash key).toNat % array.bucketCount
    ((mem.free item.key).free item.value,
      { buckets := array.buckets.modify bucket (List.eraseP (holdsKey mem key)), count := array.count - 1 }, true)

/-! ## Values -/

def AssociativeElement.owned (item : AssociativeElement) : List Nat := [item.key, item.value]

def IndexedArray.owned (array : IndexedArray) : List Nat := array.elements.map (·.value)

def AssociativeArray.owned : List Nat :=
    array.buckets.flatten.flatMap AssociativeElement.owned

def Value.owned : Value → List Nat
  | .scalar text => text.toList
  | .indexed array => array.owned
  | .associative array => array.owned

variable (value : Value)

def valueDestroy : Heap × Value := (mem.freeAll value.owned, .scalar none)

def valueIndexedSet (index : Nat) (element : Option CStr) : Heap × Value × Bool :=
  match value with
  | .indexed array =>
    let (mem, array, ok) := indexedSet env mem array index element
    (mem, .indexed array, ok)
  | _ => (mem, value, false)

def valueIndexedUnset (index : Nat) : Heap × Value × Bool :=
  match value with
  | .indexed array =>
    let (mem, array, ok) := indexedUnset mem array index
    (mem, .indexed array, ok)
  | _ => (mem, value, false)

def valueAssociativeSet (key : CStr) (element : Option CStr) : Heap × Value × Bool :=
  match value with
  | .associative array =>
    let (mem, array, ok) := associativeSet env mem array key element
    (mem, .associative array, ok)
  | _ => (mem, value, false)

def valueAssociativeUnset (key : CStr) : Heap × Value × Bool :=
  match value with
  | .associative array =>
    let (mem, array, ok) := associativeUnset mem array key
    (mem, .associative array, ok)
  | _ => (mem, value, false)

def cloneInto {α κ σ : Type*} (set : SetEnv → Heap → σ → κ → Option CStr → Heap × σ × Bool)
    (key : Heap → α → κ) (value : α → Nat) (envs : Nat → SetEnv) (mem : Heap) (destination : σ) :
    List α → Heap × σ × Bool
  | [] => (mem, destination, true)
  | item :: items =>
    match set (envs 0) mem destination (key mem item) (mem.read (value item)) with
    | (mem, destination, true) => cloneInto set key value (fun i => envs (i + 1)) mem destination items
    | (mem, destination, false) => (mem, destination, false)

def keyText (item : AssociativeElement) : CStr := (mem.read item.key).getD []

def finishClone (ok : Bool) : Heap × Value × Bool :=
  if ok then (mem, value, true) else ((valueDestroy mem value).1, (valueDestroy mem value).2, false)

def valueClone (envs : Nat → SetEnv) (mem : Heap) (source : Value) : Heap × Value × Bool :=
  match source with
  | .scalar none => (mem, .scalar none, true)
  | .scalar (some text) =>
    match valueDuplicate (envs 0).copied mem (mem.read text) with
    | (mem, some copy) => (mem, .scalar (some copy), true)
    | (mem, none) => (mem, .scalar none, false)
  | .indexed array =>
    let (mem, destination, ok) :=
      cloneInto indexedSet (fun _ => IndexedElement.index) (·.value) envs mem {} array.elements
    finishClone mem (.indexed destination) ok
  | .associative array =>
    let (mem, destination, ok) := cloneInto associativeSet keyText (·.value) envs mem {} array.buckets.flatten
    finishClone mem (.associative destination) ok

def chainDuplicateFree (mem : Heap) : List AssociativeElement → Bool
  | [] => true
  | item :: next =>
    (next.all fun duplicate => !(item.hash = duplicate.hash && mem.read item.key = mem.read duplicate.key)) &&
      chainDuplicateFree mem next

def valueInvariants : Bool :=
  match value with
  | .scalar _ => true
  | .indexed array =>
    array.elements.length ≤ array.capacity &&
      (array.elements.zip array.elements.tail).all fun pair => pair.1.index < pair.2.index
  | .associative array =>
    (array.buckets.zipIdx.all fun bucket =>
      (bucket.1.all fun item =>
        keyText mem item ≠ [] && item.hash = associativeHash (keyText mem item) &&
          item.hash.toNat % array.bucketCount = bucket.2) &&
        chainDuplicateFree mem bucket.1) &&
      array.buckets.flatten.length = array.count

/-! ## Runs over several values -/

inductive ValueOp
  | initIndexed
  | initAssociative
  | indexedSet (slot : Nat) (env : SetEnv) (index : Nat) (element : Option CStr)
  | indexedUnset (slot : Nat) (index : Nat)
  | associativeSet (slot : Nat) (env : SetEnv) (key : CStr) (element : Option CStr)
  | associativeUnset (slot : Nat) (key : CStr)
  | clone (slot : Nat) (envs : Nat → SetEnv)
  | destroy (slot : Nat)

structure State where
  memory : Heap := {}
  values : List Value := []

def State.onSlot (s : State) (slot : Nat) (f : Heap → Value → Heap × Value × Bool) : State × Bool :=
  match s.values[slot]? with
  | none => (s, false)
  | some value =>
    let (memory, value, ok) := f s.memory value
    ({ memory := memory, values := s.values.set slot value }, ok)

def ValueOp.apply (s : State) : ValueOp → State × Bool
  | .initIndexed => ({ s with values := s.values ++ [.indexed {}] }, true)
  | .initAssociative => ({ s with values := s.values ++ [.associative {}] }, true)
  | .indexedSet slot env index element => s.onSlot slot fun mem value => valueIndexedSet env mem value index element
  | .indexedUnset slot index => s.onSlot slot fun mem value => valueIndexedUnset mem value index
  | .associativeSet slot env key element => s.onSlot slot fun mem value => valueAssociativeSet env mem value key element
  | .associativeUnset slot key => s.onSlot slot fun mem value => valueAssociativeUnset mem value key
  | .clone slot envs =>
    match s.values[slot]? with
    | none => (s, false)
    | some source =>
      let (memory, destination, ok) := valueClone envs s.memory source
      ({ memory := memory, values := s.values ++ [destination] }, ok)
  | .destroy slot => s.onSlot slot fun mem value => ((valueDestroy mem value).1, (valueDestroy mem value).2, true)

end Bx.Ash.VariableValue
