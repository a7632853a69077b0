import Crossync.Linked.Chain
import Mathlib.Algebra.Ring.Nat

/-!
# The sharded hash map `AtomicHashMap`, one call at a time

Entries live on the heap and are linked into one chain per slot; a slot belongs to a shard, which
also counts its entries. The model keeps the pointers: an entry is found by walking links,
overwritten in place, linked in at the head of its chain, and unlinked by redirecting the link
before it.

Every operation is a function of the store that fails (`none`) if a walk runs into a dangling
pointer or does not end within `fuel` links. Where a new entry goes is up to the allocator, which
each insertion brings along. The locks are left out here: with one call at a time every acquisition
succeeds at once.

`as_vec` clones keys and values and converts them; both are identities here. The value seen through
the guard of `get`, and through that of `get_mut` before its update, is what the two return.

## Fuel

A walk over a chain is a loop over links, and nothing in the memory bounds it. The functions here
take a bound and fail when it is spent. The theorems about them say that a large enough bound gives
the result, and how large: the number of calls made is enough.
-/

open Linked

namespace Crossync

namespace AtomicHashMap

/-! ### Layout

The constructor's arithmetic on 64-bit words, and the routing of a hash. -/

/-- `usize::is_power_of_two`. -/
def isPowerOfTwo (n : ℕ) : Bool := n != 0 && n &&& (n - 1) == 0

/-- `usize::trailing_zeros`: the lowest bit that is set. -/
def trailingZeros (n : ℕ) : ℕ := ((List.range 64).find? fun i ↦ n.testBit i).getD 64

/-- What the constructor fixes: the number of shards, the slots of each, and the shift that selects
a shard. -/
structure Layout where
  shardAmount : ℕ
  capacity : ℕ
  shift : ℕ
  deriving DecidableEq, Repr

/-- The checks and the arithmetic of `with_capacity_hasher_and_shard_amount`, on 64-bit words. The
allocation of the shards, which panics when their slots are more than an allocation can have, is
left out. -/
def withCapacityHasherAndShardAmount (capacity shardAmount : UInt64) : Except String Layout :=
  if ¬ 1 < shardAmount.toNat then .error "shard_amount must be > 1"
  else if ¬ isPowerOfTwo shardAmount.toNat then .error "shard_amount must be power of 2"
  else
    let shift := 64 - trailingZeros shardAmount.toNat
    if capacity ≠ 0 then
      if capacity.toNat + (shardAmount.toNat - 1) < 2 ^ 64 then
        let capacity := (capacity + (shardAmount - 1)) &&& ~~~(shardAmount - 1)
        .ok ⟨shardAmount.toNat,
          if capacity = 0 then 16 else capacity.toNat / shardAmount.toNat, shift⟩
      else .error "map capacity overflow"
    else .ok ⟨shardAmount.toNat, 16, shift⟩

/-- `determine_shard`. -/
def Layout.determineShard (L : Layout) (hash : UInt64) : ℕ :=
  ((hash.toBitVec <<< 7) >>> L.shift).toNat

/-- `Shard::get_slot`. -/
def Layout.getSlot (L : Layout) (hash : UInt64) : ℕ := hash.toNat % L.capacity

/-! ### Store

Shards, slots and the heap of entries. -/

variable {K V : Type*}

/-- An entry, stored in a collision chain. -/
structure Entry (K V : Type*) where
  key : K
  value : V
  hash : UInt64
  next : ℕ

instance : Node (Entry K V) where
  next := Entry.next
  setNext e p := { e with next := p }
  next_setNext _ _ := rfl

/-- A shard: the head of each slot, and the number of entries. -/
structure Shard where
  heads : ℕ → ℕ
  count : ℕ

/-- The shards and the heap their chains are in. -/
structure Store (K V : Type*) where
  heap : Mem (Entry K V)
  shards : ℕ → Shard

/-- A new map. -/
def Store.new : Store K V := ⟨fun _ ↦ none, fun _ ↦ ⟨fun _ ↦ 0, 0⟩⟩

/-- The head of a slot is written. -/
def Shard.setHead (sh : Shard) (j p : ℕ) : Shard :=
  { sh with heads := Function.update sh.heads j p }

/-- The entry at an address is written. -/
def Store.setEntry (s : Store K V) (p : ℕ) (e : Option (Entry K V)) : Store K V :=
  { s with heap := Function.update s.heap p e }

/-- A shard is written. -/
def Store.setShard (s : Store K V) (i : ℕ) (sh : Shard) : Store K V :=
  { s with shards := Function.update s.shards i sh }

/-! ### Operations

The loops over links take a bound on their rounds. Apart from that each function is the one of the
source. -/

section Code

variable [BEq K] [Hashable K] (L : Layout) (fuel : ℕ)

/-- The test of every chain walk. -/
def found (hash : UInt64) (key : K) (e : Entry K V) : Bool := e.hash == hash && e.key == key

/-- The walk that most operations start with. -/
def lookup (hash : UInt64) (key : K) (s : Store K V) : Option (Option ℕ) :=
  find (found hash key) s.heap fuel
    ((s.shards (L.determineShard hash)).heads (L.getSlot hash))

/-- `Shard::insert`; `alloc` is where the allocator puts a new entry. -/
def insert (alloc : Mem (Entry K V) → ℕ) (key : K) (value : V) (s : Store K V) :
    Option (Store K V × Option V) :=
  let hash := hash key
  let i := L.determineShard hash
  let j := L.getSlot hash
  match lookup L fuel hash key s with
  | none => none
  | some (some cur) =>
    match s.heap cur with
    | none => none
    | some e => some (s.setEntry cur (some { e with value := value }), some e.value)
  | some none =>
    let sh := s.shards i
    let newEntry := alloc s.heap
    let s := s.setEntry newEntry (some ⟨key, value, hash, sh.heads j⟩)
    some (s.setShard i { sh.setHead j newEntry with count := sh.count + 1 }, none)

/-- `Shard::remove`. -/
def remove (key : K) (s : Store K V) : Option (Store K V × Option V) :=
  let hash := hash key
  let i := L.determineShard hash
  let j := L.getSlot hash
  match findPrev (found hash key) s.heap fuel 0 ((s.shards i).heads j) with
  | none => none
  | some none => some (s, none)
  | some (some (prev, cur)) =>
    match s.heap cur with
    | none => none
    | some e =>
      let sh := s.shards i
      if prev = 0 then
        let s := s.setShard i { sh.setHead j e.next with count := sh.count - 1 }
        some (s.setEntry cur none, some e.value)
      else
        match s.heap prev with
        | none => none
        | some ep =>
          let s := s.setEntry prev (some { ep with next := e.next })
          let s := s.setShard i { sh with count := sh.count - 1 }
          some (s.setEntry cur none, some e.value)

/-- `get`, and the value its guard shows. -/
def get (key : K) (s : Store K V) : Option (Option V) :=
  match lookup L fuel (hash key) key s with
  | none => none
  | some none => some none
  | some (some cur) => (s.heap cur).map fun e ↦ some e.value

/-- `get_mut`, with an update through its guard. -/
def getMut (key : K) (f : V → V) (s : Store K V) : Option (Store K V × Option V) :=
  match lookup L fuel (hash key) key s with
  | none => none
  | some none => some (s, none)
  | some (some cur) =>
    match s.heap cur with
    | none => none
    | some e => some (s.setEntry cur (some { e with value := f e.value }), some e.value)

/-- `contains_key`. -/
def containsKey (key : K) (s : Store K V) : Option Bool :=
  (lookup L fuel (hash key) key s).map Option.isSome

/-- One slot of `try_detach`: take the chain out, and its length off the count. -/
def detachSlot (i j : ℕ) (s : Store K V) : Option (Store K V × ℕ) :=
  let sh := s.shards i
  let chain := sh.heads j
  match cells s.heap fuel chain with
  | none => none
  | some es => some (s.setShard i { sh.setHead j 0 with count := sh.count - es.length }, chain)

/-- `try_detach`, from slot `j` on, with every slot mutex at hand. -/
def tryDetach (i : ℕ) : List ℕ → Store K V → Option (Store K V × List ℕ)
  | [], s => some (s, [])
  | j :: js, s =>
    match detachSlot fuel i j s with
    | none => none
    | some (s, chain) => (tryDetach i js s).map fun r ↦ (r.1, chain :: r.2)

/-- The detached chains are dropped. -/
def dropChains : List ℕ → Mem (Entry K V) → Option (Mem (Entry K V))
  | [], heap => some heap
  | chain :: chains, heap =>
    match free heap fuel chain with
    | none => none
    | some heap => dropChains chains heap

/-- `clear`, over the shards that are left. -/
def clear : List ℕ → Store K V → Option (Store K V)
  | [], s => some s
  | i :: is, s =>
    match tryDetach fuel i (List.range L.capacity) s with
    | none => none
    | some (s, chains) =>
      match dropChains fuel chains s.heap with
      | none => none
      | some heap => clear is { s with heap := heap }

/-- The slots of all shards, in the order of the two loops of `as_vec`. -/
def Layout.slots : List (ℕ × ℕ) :=
  (List.range L.shardAmount).flatMap fun i ↦ (List.range L.capacity).map fun j ↦ (i, j)

/-- `as_vec`, over the slots that are left. -/
def asVec (s : Store K V) : List (ℕ × ℕ) → Option (List (K × V))
  | [] => some []
  | (i, j) :: rest =>
    match cells s.heap fuel ((s.shards i).heads j) with
    | none => none
    | some es => (asVec s rest).map fun result ↦ es.map (fun e ↦ (e.key, e.value)) ++ result

/-- `len`. -/
def len (s : Store K V) : ℕ := ((List.range L.shardAmount).map fun i ↦ (s.shards i).count).sum

/-- The calls. -/
inductive Cmd (K V : Type*) where
  | insert (alloc : Mem (Entry K V) → ℕ) (key : K) (value : V)
  | get (key : K)
  | getMut (key : K) (f : V → V)
  | remove (key : K)
  | containsKey (key : K)
  | clear
  | len
  | asVec

/-- What a call returns. -/
inductive Result (K V : Type*) where
  | value (o : Option V)
  | bool (b : Bool)
  | unit
  | len (n : ℕ)
  | entries (l : List (K × V))

/-- One call. -/
def exec (cmd : Cmd K V) (s : Store K V) : Option (Store K V × Result K V) :=
  match cmd with
  | .insert alloc key value => (insert L fuel alloc key value s).map fun r ↦ (r.1, .value r.2)
  | .get key => (get L fuel key s).map fun o ↦ (s, .value o)
  | .getMut key f => (getMut L fuel key f s).map fun r ↦ (r.1, .value r.2)
  | .remove key => (remove L fuel key s).map fun r ↦ (r.1, .value r.2)
  | .containsKey key => (containsKey L fuel key s).map fun b ↦ (s, .bool b)
  | .clear => (clear L fuel (List.range L.shardAmount) s).map fun s ↦ (s, .unit)
  | .len => some (s, .len (len L s))
  | .asVec => (asVec fuel s L.slots).map fun l ↦ (s, .entries l)

/-- A sequence of calls. -/
def run : List (Cmd K V) → Store K V → Option (Store K V × List (Result K V))
  | [], s => some (s, [])
  | cmd :: cmds, s =>
    match exec L fuel cmd s with
    | none => none
    | some (s, r) => (run cmds s).map fun x ↦ (x.1, r :: x.2)

end Code

end AtomicHashMap

end Crossync
