import Calx.Number.Basic

/-!
# The hash table

`xht.h` and `xht.c`: a dense array of items, chained by index through the
buckets. Growing the buckets rebuilds all chains; removing an item moves the
last one into its place.

## Implementation notes

The item array is the list of the items in use; what a removal leaves behind
its end is not kept. Reading outside an array is the fault `outOfBounds`. A
pointer to a link is a `Slot`. The loops along a chain are bounded by fuel. A
pointer to an item's value is the item's index.
-/

namespace Calx

/-- What the hash table can run into. -/
inductive XhtFault
  /-- `overflow_handler`. -/
  | panic
  | outOfBounds
  /-- A loop has been run as often as the fuel allows. -/
  | exhausted
deriving DecidableEq

/-- `(uint32_t) -1`. -/
def noIndex : Nat := 2 ^ 32 - 1

/-- `xHt_Item`. -/
structure XhtItem (V : Type) where
  key : Bytes
  value : V
  next : Nat
  hash : UInt32

/-- `xHt`. -/
structure Xht (V : Type) where
  items : List (XhtItem V)
  buckets : List Nat
  nbuckets : Nat
  itemsCapacity : Nat

/-- A link of a chain: the head of a bucket or the link of an item. -/
inductive Slot
  | bucket (b : Nat)
  | next (i : Nat)

/-- An array access. -/
def xhtLoad {α : Type} (l : List α) (i : Nat) : Except XhtFault α :=
  match l[i]? with
  | some a => .ok a
  | none => .error .outOfBounds

namespace Xht

variable {V : Type}

/-- `hash & (ht->nbuckets - 1)`. -/
def bucketOf (t : Xht V) (hash : UInt32) : Nat := hash.toNat &&& (t.nbuckets - 1)

/-- `*pi`. -/
def read (t : Xht V) : Slot → Except XhtFault Nat
  | .bucket b => xhtLoad t.buckets b
  | .next i => do
      let item ← xhtLoad t.items i
      pure item.next

/-- `*pi = v`. -/
def write (t : Xht V) (v : Nat) : Slot → Xht V
  | .bucket b => { t with buckets := t.buckets.set b v }
  | .next i => { t with items := t.items.modify i fun item => { item with next := v } }

/-- `*p = v` for the pointer to the value of an item. -/
def setValue (t : Xht V) (i : Nat) (v : V) : Xht V :=
  { t with items := t.items.modify i fun item => { item with value := v } }

end Xht

open Xht

variable {V : Type}

/-- `xht_new`. -/
def xhtNew (rank : Nat) : Xht V :=
  { items := []
    buckets := List.replicate (2 ^ rank) noIndex
    nbuckets := 2 ^ rank
    itemsCapacity := 0 }

/-- `xht_size`. -/
def xhtSize (t : Xht V) : Nat := t.items.length

/-- The loop of `xht_get`, `xht_put` and `xht_indexed_next`: the item of the chain with the key. -/
def xhtFind (t : Xht V) (key : Bytes) : Nat → Nat → Except XhtFault (Option (Nat × XhtItem V))
  | 0, _ => .error .exhausted
  | fuel + 1, i => do
      if i = noIndex then pure none
      else
        let item ← xhtLoad t.items i
        if item.key = key then pure (some (i, item)) else xhtFind t key fuel item.next

/-- `xht_get`. -/
def xhtGet (fuel : Nat) (t : Xht V) (key : Bytes) (hash : UInt32) (ifAbsent : V) :
    Except XhtFault V := do
  let i ← xhtLoad t.buckets (t.bucketOf hash)
  match ← xhtFind t key fuel i with
  | some (_, item) => pure item.value
  | none => pure ifAbsent

/-- `grow_items`. -/
def growItems (t : Xht V) : Except XhtFault (Xht V) :=
  if t.itemsCapacity = 2 ^ 32 - 1 then .error .panic
  else
    let capacity :=
      if t.itemsCapacity = 0 then 1
      else if t.itemsCapacity * 2 ≥ 2 ^ 32 then 2 ^ 32 - 1
      else t.itemsCapacity * 2
    .ok { t with itemsCapacity := capacity }

/-- One turn of the loop of `grow_buckets`: item `i` becomes the head of its bucket. -/
def relink (t : Xht V) (i : Nat) : Except XhtFault (Xht V) := do
  let item ← xhtLoad t.items i
  let head ← xhtLoad t.buckets (t.bucketOf item.hash)
  pure ((t.write head (.next i)).write i (.bucket (t.bucketOf item.hash)))

/-- `grow_buckets`. -/
def growBuckets (t : Xht V) : Except XhtFault (Xht V) :=
  if t.nbuckets * 2 ≥ 2 ^ 32 then .error .panic
  else
    let t :=
      { t with nbuckets := t.nbuckets * 2, buckets := List.replicate (t.nbuckets * 2) noIndex }
    (List.range t.items.length).foldlM relink t

/-- Room for one more item: `if (idx == ht->items_capacity) grow_items(ht)`. -/
def reserveItem (t : Xht V) : Except XhtFault (Xht V) :=
  if t.items.length = t.itemsCapacity then growItems t else .ok t

/-- The new item at index `items_size`, and the bucket that now starts with it. -/
def addItem (t : Xht V) (key : Bytes) (hash : UInt32) (value : V) (next : Nat) : Xht V :=
  { t with
    items := t.items ++ [⟨key, value, next, hash⟩]
    buckets := t.buckets.set (t.bucketOf hash) t.items.length }

/-- The load test at the end of `xht_insert_new_unchecked`. -/
def reserveBuckets (t : Xht V) : Except XhtFault (Xht V) :=
  if t.items.length * 4 > t.nbuckets * 3 then growBuckets t else .ok t

/-- `xht_insert_new_unchecked`; the result is the index of the new item. -/
def xhtInsertNewUnchecked (t : Xht V) (key : Bytes) (hash : UInt32) (value : V) :
    Except XhtFault (Nat × Xht V) := do
  let idx := t.items.length
  let t ← reserveItem t
  let next ← xhtLoad t.buckets (t.bucketOf hash)
  let t ← reserveBuckets (addItem t key hash value next)
  pure (idx, t)

/-- `xht_put`; the result is the index of the entry. -/
def xhtPut (fuel : Nat) (t : Xht V) (key : Bytes) (hash : UInt32) (value : V) :
    Except XhtFault (Nat × Xht V) := do
  let i ← xhtLoad t.buckets (t.bucketOf hash)
  match ← xhtFind t key fuel i with
  | some (i, _) => pure (i, t)
  | none => xhtInsertNewUnchecked t key hash value

/-- `xht_indexed_key`. -/
def xhtIndexedKey (t : Xht V) (idx : Nat) : Except XhtFault Bytes := do
  let item ← xhtLoad t.items idx
  pure item.key

/-- The loop of `pop_item_at_index`: the link that holds `last`. -/
def seekSlot (t : Xht V) (last : Nat) : Nat → Slot → Except XhtFault Slot
  | 0, _ => .error .exhausted
  | fuel + 1, slot => do
      let i ← t.read slot
      if i = last then pure slot else seekSlot t last fuel (.next i)

/-- The last item moves to `idx`, and the link to it with it. -/
def moveLast (fuel : Nat) (t : Xht V) (idx : Nat) : Except XhtFault (Xht V) := do
  let idxLast := t.items.length - 1
  let item ← xhtLoad t.items idxLast
  let slot ← seekSlot t idxLast fuel (.bucket (t.bucketOf item.hash))
  let t := t.write idx slot
  let item ← xhtLoad t.items idxLast
  pure { t with items := t.items.set idx item }

/-- `pop_item_at_index`. -/
def popItemAtIndex (fuel : Nat) (t : Xht V) (idx : Nat) : Except XhtFault (Xht V) := do
  let t ← if idx ≠ t.items.length - 1 then moveLast fuel t idx else .ok t
  pure { t with items := t.items.dropLast }

/-- The loop of `xht_remove`: the item with the key and the link that holds it. -/
def seekKey (t : Xht V) (key : Bytes) : Nat → Slot →
    Except XhtFault (Option (Slot × Nat × XhtItem V))
  | 0, _ => .error .exhausted
  | fuel + 1, slot => do
      let i ← t.read slot
      if i = noIndex then pure none
      else
        let item ← xhtLoad t.items i
        if item.key = key then pure (some (slot, i, item)) else seekKey t key fuel (.next i)

/-- `xht_remove`. -/
def xhtRemove (fuel : Nat) (t : Xht V) (key : Bytes) (hash : UInt32) (ifAbsent : V) :
    Except XhtFault (V × Xht V) := do
  match ← seekKey t key fuel (.bucket (t.bucketOf hash)) with
  | none => pure (ifAbsent, t)
  | some (slot, i, item) =>
      let t ← popItemAtIndex fuel (t.write item.next slot) i
      pure (item.value, t)

/-- `xht_indexed_first`. -/
def xhtIndexedFirst (t : Xht V) : Nat → Nat → Except XhtFault Nat
  | 0, _ => .error .exhausted
  | fuel + 1, b => do
      if b = t.nbuckets then pure noIndex
      else
        let i ← xhtLoad t.buckets b
        if i = noIndex then xhtIndexedFirst t fuel (b + 1) else pure i

/-- `xht_indexed_next`. -/
def xhtIndexedNext (fuel : Nat) (t : Xht V) (key : Bytes) (hash : UInt32) :
    Except XhtFault Nat := do
  let i ← xhtLoad t.buckets (t.bucketOf hash)
  match ← xhtFind t key fuel i with
  | some (_, item) =>
      if item.next = noIndex then xhtIndexedFirst t fuel (t.bucketOf hash + 1) else pure item.next
  | none => pure noIndex

end Calx
