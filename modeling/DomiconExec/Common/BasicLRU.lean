import DomiconExec.Primitives.Bytes
import DomiconExec.Primitives.GoMap

namespace Common

abbrev Ptr :=
  Nat

-- The fields of the list elements by their addresses. A nil pointer is `none`.
structure Elems (K : Type) where
  next : Ptr → Option Ptr
  prev : Ptr → Option Ptr
  v : Ptr → K

namespace Elems

variable {K : Type}

def root : Ptr :=
  0

-- Assigns to a field of the element behind a pointer.
def store (f : Ptr → Option Ptr) (p q : Option Ptr) : Except GoPanic (Ptr → Option Ptr) :=
  match p with
  | none   => .error .nilDereference
  | some p => .ok (Function.update f p q)

def init (l : Elems K) : Elems K :=
  { l with
    next := Function.update l.next root (some root)
    prev := Function.update l.prev root (some root)
  }

def pushElem (l : Elems K) (e : Ptr) : Except GoPanic (Elems K) := do
  let l := { l with prev := Function.update l.prev e (some root) }
  let l := { l with next := Function.update l.next e (l.next root) }
  let l := { l with next := Function.update l.next root (some e) }
  return { l with prev := ← store l.prev (l.next e) (some e) }

def unlink (l : Elems K) (e : Ptr) : Except GoPanic (Elems K) := do
  let l := { l with next := ← store l.next (l.prev e) (l.next e) }
  return { l with prev := ← store l.prev (l.next e) (l.prev e) }

def moveToFront (l : Elems K) (e : Ptr) : Except GoPanic (Elems K) := do
  (← l.unlink e).pushElem e

def remove (l : Elems K) (e : Ptr) : Except GoPanic (Elems K) := do
  let l ← l.unlink e
  return { l with next := Function.update l.next e none, prev := Function.update l.prev e none }

def last (l : Elems K) : Option Ptr :=
  if l.prev root = some root then none else l.prev root

end Elems

structure CacheItem (V : Type) where
  elem : Ptr
  value : V

-- The elements from the address `fresh` on are not in use yet.
structure BasicLRU (K V : Type) where
  list : Elems K
  fresh : Ptr
  items : GoMap K (CacheItem V)
  cap : Nat

-- The methods of the cache and what they return. A value comes with whether the key was present.
inductive CacheCall (K V : Type)
  | add (key : K) (value : V)
  | get (key : K)
  | peek (key : K)
  | contains (key : K)
  | remove (key : K)
  | removeOldest
  | purge

inductive CacheResult (K V : Type)
  | flag (b : Bool)
  | value (o : Option V)
  | entry (o : Option (K × Option V))
  | done

namespace BasicLRU

variable {K V : Type} [DecidableEq K]

omit [DecidableEq K] in
def newBasicLRU [Inhabited K] (capacity : Int) : BasicLRU K V where
  list := Elems.init ⟨fun _ => none, fun _ => none, fun _ => default⟩
  fresh := Elems.root + 1
  items := ∅
  cap := if capacity ≤ 0 then 1 else capacity.toNat

-- The element for a new key, which is that of the evicted key if there is one.
def reuse (c : BasicLRU K V) : Except GoPanic (Bool × Ptr × BasicLRU K V) :=
  if c.items.len ≥ c.cap then
    match c.list.last with
    | none      => .error .nilDereference
    | some elem => do
      let list ← c.list.remove elem
      return (true, elem, { c with list, items := c.items.del (list.v elem) })
  else
    .ok (false, c.fresh, { c with fresh := c.fresh + 1 })

def add (c : BasicLRU K V) (key : K) (value : V) : Except GoPanic (Bool × BasicLRU K V) :=
  match c.items.get key with
  | some item => do
    let c := { c with items := c.items.set key { item with value } }
    return (false, { c with list := ← c.list.moveToFront item.elem })
  | none => do
    let (evicted, elem, c) ← c.reuse
    let list := { c.list with v := Function.update c.list.v elem key }
    let c := { c with items := c.items.set key ⟨elem, value⟩ }
    return (evicted, { c with list := ← list.pushElem elem })

def get (c : BasicLRU K V) (key : K) : Except GoPanic (Option V × BasicLRU K V) :=
  match c.items.get key with
  | none      => .ok (none, c)
  | some item => do
    return (some item.value, { c with list := ← c.list.moveToFront item.elem })

def peek (c : BasicLRU K V) (key : K) : Option V :=
  (c.items.get key).map CacheItem.value

def contains (c : BasicLRU K V) (key : K) : Bool :=
  (c.items.get key).isSome

omit [DecidableEq K] in
def purge (c : BasicLRU K V) : BasicLRU K V :=
  { c with list := c.list.init, items := ∅ }

def remove (c : BasicLRU K V) (key : K) : Except GoPanic (Bool × BasicLRU K V) :=
  match c.items.get key with
  | none      => .ok (false, c)
  | some item => do
    let c := { c with items := c.items.del key }
    return (true, { c with list := ← c.list.remove item.elem })

def removeOldest (c : BasicLRU K V) : Except GoPanic (Option (K × Option V) × BasicLRU K V) :=
  match c.list.last with
  | none          => .ok (none, c)
  | some lastElem => do
    let key := c.list.v lastElem
    let item := c.items.get key
    let c := { c with items := c.items.del key }
    return (some (key, item.map CacheItem.value), { c with list := ← c.list.remove lastElem })

def call (c : BasicLRU K V) :
    CacheCall K V → Except GoPanic (CacheResult K V × BasicLRU K V)
  | .add key value => Prod.map .flag id <$> c.add key value
  | .get key       => Prod.map .value id <$> c.get key
  | .peek key      => .ok (.value (c.peek key), c)
  | .contains key  => .ok (.flag (c.contains key), c)
  | .remove key    => Prod.map .flag id <$> c.remove key
  | .removeOldest  => Prod.map .entry id <$> c.removeOldest
  | .purge         => .ok (.done, c.purge)

end BasicLRU
end Common
