import TinyLittleOs.Lib.Ring
import Mathlib.Data.BitVec
import Mathlib.Logic.Relation

/-!
# The hash table

`ds::hashtable<N>` of `hashtable.hpp`. A bucket is a ring of links; the first link is embedded
in `m_arr` and is also the mark of an empty bucket, the others come from
`__hashtable_link_alloc`. A null pointer is `none`.
-/

namespace TinyLittleOs.Ds

open Lib Relation

/-- `__ht_link`: the slot `m_arr[h]`, or a link from the allocator, by its address. -/
inductive HtLink (N : Nat) where
  | slot (h : Fin N)
  | chain (addr : Nat)
  deriving DecidableEq

/-- The links, and the addresses that `__hashtable_link_alloc` has handed out. -/
structure Hashtable (N : Nat) (α : Type*) where
  ring : Rings (HtLink N)
  key : HtLink N → BitVec 32
  obj : HtLink N → Option α
  allocated : List Nat

namespace Hashtable

variable {N : Nat} {α : Type*}

/-- The constructor: every slot is a lonely link without an object. -/
def construct (t : Hashtable N α) : Hashtable N α where
  ring :=
    { next := fun | .slot h => .slot h | .chain a => t.ring.next (.chain a)
      prev := fun | .slot h => .slot h | .chain a => t.ring.prev (.chain a) }
  key := fun | .slot _ => 0 | .chain a => t.key (.chain a)
  obj := fun | .slot _ => none | .chain a => t.obj (.chain a)
  allocated := []

def setLink (t : Hashtable N α) (l : HtLink N) (key : BitVec 32) (obj : Option α) :
    Hashtable N α :=
  { t with key := Function.update t.key l key, obj := Function.update t.obj l obj }

@[simp] theorem setLink_ring (t : Hashtable N α) (l : HtLink N) (k : BitVec 32) (o : Option α) :
    (t.setLink l k o).ring = t.ring := rfl

@[simp] theorem setLink_allocated (t : Hashtable N α) (l : HtLink N) (k : BitVec 32)
    (o : Option α) : (t.setLink l k o).allocated = t.allocated := rfl

theorem setLink_key (t : Hashtable N α) (l : HtLink N) (k : BitVec 32) (o : Option α)
    (l' : HtLink N) : (t.setLink l k o).key l' = if l' = l then k else t.key l' :=
  Function.update_apply t.key l k l'

theorem setLink_obj (t : Hashtable N α) (l : HtLink N) (k : BitVec 32) (o : Option α)
    (l' : HtLink N) : (t.setLink l k o).obj l' = if l' = l then o else t.obj l' :=
  Function.update_apply t.obj l o l'

theorem setLink_of_ne (t : Hashtable N α) {l x : HtLink N} (h : x ≠ l) (k : BitVec 32)
    (o : Option α) : (t.setLink l k o).key x = t.key x ∧ (t.setLink l k o).obj x = t.obj x := by
  rw [setLink_key, setLink_obj, if_neg h, if_neg h]
  exact ⟨rfl, rfl⟩

/-- `hash`, where `N` is a power of two. -/
def hash (N : Nat) [NeZero N] (val : BitVec 32) : Fin N :=
  Fin.ofNat N ((val * 0x61C88647#32).toNat &&& (N - 1))

/-- The loop of `lookup_internal` over the ring of `head`, from `link` on. The fuel bounds the
rounds. -/
def find (t : Hashtable N α) (key : BitVec 32) (head : HtLink N) :
    Nat → HtLink N → Option (Option (HtLink N))
  | 0, _ => none
  | fuel + 1, link =>
    if t.key link = key then some (some link)
    else if t.ring.next link = head then some none
    else t.find key head fuel (t.ring.next link)

def lookupInternal (t : Hashtable N α) (fuel : Nat) (key : BitVec 32) (h : Fin N) :
    Option (Option (HtLink N)) :=
  t.find key (.slot h) fuel (.slot h)

/-- `allocate` returns the address `addr`, and constructs the link there. -/
def allocate (t : Hashtable N α) (addr : Nat) : Hashtable N α :=
  { t with
    ring := t.ring.makeLonely (.chain addr)
    allocated := addr :: t.allocated }.setLink (.chain addr) 0 none

/-- `free`, which takes only what `allocate` has handed out. -/
def free (t : Hashtable N α) : HtLink N → Option (Hashtable N α)
  | .slot _ => none
  | .chain addr =>
    if addr ∈ t.allocated then
      some { t with allocated := t.allocated.erase addr }
    else
      none

variable [NeZero N]

/-- `insert`; `addr` is what the allocator returns if it is called. A null value fails the
assertion. -/
def insert (t : Hashtable N α) (key : BitVec 32) (value : Option α) (addr : Nat) :
    Option (Hashtable N α) :=
  if value.isNone then
    none
  else
    let h := hash N key
    if (t.obj (.slot h)).isNone then
      some (t.setLink (.slot h) key value)
    else
      let t := (t.allocate addr).setLink (.chain addr) key value
      some { t with ring := t.ring.addAfterSelf (.slot h) (.chain addr) }

/-- `remove` -/
def remove (t : Hashtable N α) (fuel : Nat) (key : BitVec 32) : Option (Bool × Hashtable N α) :=
  let h := hash N key
  (t.lookupInternal fuel key h).bind fun
    | none => some (false, t)
    | some link =>
      if link = .slot h then
        if t.ring.next link = link then
          some (true, { t with obj := Function.update t.obj link none })
        else
          let next := t.ring.next link
          let t := t.setLink link (t.key next) (t.obj next)
          ({ t with ring := t.ring.unlink next }.free next).map fun t => (true, t)
      else
        ({ t with ring := t.ring.unlink link }.free link).map fun t => (true, t)

/-- `lookup` -/
def lookup (t : Hashtable N α) (fuel : Nat) (key : BitVec 32) : Option (Option α) :=
  (t.lookupInternal fuel key (hash N key)).map fun
    | none => none
    | some link => t.obj link

end Hashtable

end TinyLittleOs.Ds
