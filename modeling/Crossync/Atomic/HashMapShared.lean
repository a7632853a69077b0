import Mathlib.Data.Int.Notation
import Crossync.Core.RawMutex
import Crossync.Core.SerialMutex
import Crossync.Atomic.HashMap

/-!
# The sharded hash map `AtomicHashMap`, shared between threads

The same map with its locks, one step per atomic access. A shard is behind a reader-writer lock, the
model of `RawMutex`, and a slot behind a `SerialMutex`; their accesses are run from inside the
program points `Pc.shard` and `Pc.slot`. A call on a key takes the shard shared and the slot for
reading or writing, and walks the chain of the slot one entry at a time.

## Guards

`get` and `get_mut` return with the mutex of the slot still held and the shard released. So a guard
keeps nothing but its `Hold`: the slot, the kind of access and the thread whose number the mutex
carries. `guards` records the returned guards by the thread that has them now; the code never reads
it, it carries the obligation that only that thread uses or drops the guard.

## Clearing

`clear` takes one shard after the other exclusively, by `try_lock`, and then every slot of it, by
`try_write_guard`. If a slot is taken it gives everything back and tries again. If it gets them all
it swaps every head for null, counting what it takes out, releases the slots and the shard, and
destroys the detached chains.

## Reading the model

`count` is an integer: a `fetch_sub` that would wrap the word of the source shows as a negative
count. `dangling` is set by an access to an entry that is not there. Where a new entry goes is up to
the allocator, a choice of the step.

The map is one whose builder threads use in parallel (`hasher_parallel`), so that a call hashes its
key without a lock. With another builder `hash` takes `hasher_lock` while it builds a hasher, and
`hasher` returns a guard that keeps this lock; neither is modelled. It would not change what a call
does to the map, only when it may go on: such a guard holds up the calls of the other threads.

Left out too are the reference count of the map, and user code that panics: comparing, cloning and
destroying keys and values is plain data here. So is the `len` with which `as_vec` sizes its vector.
-/

open Interleave Linked

namespace Crossync

namespace AtomicHashMap

namespace Shared

/-- An access to the mutex of a slot that is held. -/
structure Hold (ι : Type*) where
  shard : ℕ
  slot : ℕ
  read : Bool
  acquirer : ι
  deriving DecidableEq

/-- A returned guard: the hold it keeps and the entry it points to. -/
structure Guard (ι : Type*) where
  hold : Hold ι
  entry : ℕ
  deriving DecidableEq

/-- The shared store of a map, with the records described above. -/
structure Store (ι K V : Type*) where
  heap : Mem (Entry K V)
  heads : ℕ → ℕ → ℕ
  count : ℕ → ℤ
  shardLock : ℕ → RawMutex.Store ι
  slotLock : ℕ → ℕ → SerialMutex.Store ι
  guards : ι → List (Guard ι)
  /-- Whether an entry was accessed that is not there. -/
  dangling : Bool

/-- The operations of the map, and what a holder does with a guard. -/
inductive Op (ι K V : Type*) where
  | insert (key : K) (value : V)
  | get (key : K)
  | getMut (key : K)
  | remove (key : K)
  | containsKey (key : K)
  | clear
  | len
  | asVec
  | deref (g : Guard ι)
  | write (g : Guard ι) (v : V)
  | dropGuard (g : Guard ι)
  | sendGuard (g : Guard ι) (dest : ι)

/-- Why a call panics. -/
inductive Panic where
  /-- "conflicting reentrant Atomic access" or "Atomic reader count overflow" -/
  | lock
  /-- "clear while holding an AtomicHashMap guard" -/
  | clear
  /-- "reentrant AtomicHashMap clear" -/
  | reentrant
  deriving DecidableEq, Repr

/-- How an operation ends. -/
inductive Ret (ι K V : Type*) where
  | unit
  /-- What `insert` and `remove` return. -/
  | value (o : Option V)
  | bool (b : Bool)
  | guard (g : Guard ι)
  /-- `get` or `get_mut` returned `None`. -/
  | absent
  | len (n : ℤ)
  | entries (l : List (K × V))
  /-- What a guard shows. -/
  | shown (v : V)
  | panicked (why : Panic)

/-- The calls that look into slots. -/
inductive Job (K V : Type*) where
  | insert (key : K) (value : V)
  | remove (key : K)
  | containsKey (key : K)
  | get (key : K)
  | getMut (key : K)
  | asVec

/-- Whether a job takes its slots for reading. -/
def Job.reads {K V : Type*} : Job K V → Bool
  | containsKey _ | get _ | asVec => true
  | insert _ _ | remove _ | getMut _ => false

/-- The locals of a call at a slot. -/
structure Visit (K V : Type*) where
  job : Job K V
  shard : ℕ
  slot : ℕ
  /-- What `as_vec` has collected. -/
  seen : List (K × V)

/-- The hold that a visit of `t` takes. -/
def Visit.hold {ι K V : Type*} (v : Visit K V) (t : ι) : Hold ι := ⟨v.shard, v.slot, v.job.reads, t⟩

/-- What the caller of a shard lock does when the lock operation returns. -/
inductive After (ι K V : Type*) where
  /-- `lock_shared` of a call that looks into a slot. -/
  | visit (v : Visit K V)
  /-- `as_vec` is done with a shard. -/
  | nextShard (i : ℕ) (seen : List (K × V))
  /-- `len` at a shard, with the counts so far, and when it is done with it. -/
  | len (i : ℕ) (n : ℤ)
  | lenNext (i : ℕ) (n : ℤ)
  /-- The shared guard of a call is dropped, then the call returns. -/
  | finish (i : ℕ) (r : Ret ι K V)
  /-- The same, for a call that returns a guard. -/
  | guard (g : Guard ι)
  /-- `clear`: `try_lock`. -/
  | attempt (i : ℕ)
  /-- `clear`: the shared section in which the slots are inspected, and its end. -/
  | inspect (i : ℕ)
  | retry (i : ℕ)
  /-- `clear`: the exclusive section ends after `try_detach` failed or panicked. -/
  | backOut (i : ℕ) (panics : Bool)
  /-- `clear`: the exclusive section ends with the chains detached. -/
  | detached (i : ℕ) (chains : List ℕ)

/-- What the caller of a slot mutex does when the operation returns. -/
inductive Next (ι K V : Type*) where
  /-- `read_guard` or `write_guard` of a call. -/
  | locked (v : Visit K V)
  /-- The slot guard of a call is dropped, with what the call is to return. -/
  | unlocked (v : Visit K V) (r : Ret ι K V)
  /-- A returned guard is dropped. -/
  | dropped (g : Guard ι)
  /-- `try_detach`: `try_write_guard`. -/
  | attempt (i j : ℕ)
  /-- `try_detach`: the guard of slot `j` is dropped, of those taken on the first `taken` slots. -/
  | backOut (i j taken : ℕ) (panics : Bool)
  /-- `try_detach`: the guard of slot `j` is dropped after everything was detached. -/
  | detached (i j : ℕ) (chains : List ℕ)

/-- The shard whose lock is operated on. -/
def After.target {ι K V : Type*} : After ι K V → ℕ
  | visit v => v.shard
  | guard g => g.hold.shard
  | nextShard i _ | len i _ | lenNext i _ | finish i _ | attempt i | inspect i | retry i
  | backOut i _
  | detached i _ => i

/-- The slot whose mutex is operated on. -/
def Next.target {ι K V : Type*} : Next ι K V → ℕ × ℕ
  | locked v | unlocked v _ => (v.shard, v.slot)
  | dropped g => (g.hold.shard, g.hold.slot)
  | attempt i j | backOut i j _ _ | detached i j _ => (i, j)

/-- Program points, named after the access that comes next. -/
inductive Pc (ι K V : Type*) where
  /-- Inside an operation of a shard lock. -/
  | shard (p : RawMutex.Pc) (k : After ι K V)
  /-- Inside an operation of a slot mutex. -/
  | slot (p : SerialMutex.Pc ι) (k : Next ι K V)
  /-- Load of the head of the slot. -/
  | loadHead (v : Visit K V)
  /-- The walk at an entry: the test, and the load of the link. -/
  | walk (v : Visit K V) (prev cur : ℕ)
  /-- `insert` on a key that is there. -/
  | replace (v : Visit K V) (cur : ℕ) (value : V)
  /-- `insert` of a new key: the new entry, the store of the head, the count. -/
  | newEntry (v : Visit K V) (key : K) (value : V)
  | linkEntry (v : Visit K V) (entry : ℕ)
  | countUp (v : Visit K V)
  /-- `remove`: load of the link, its store one entry before, the count, the release of the
  entry. -/
  | unlinkLoad (v : Visit K V) (prev cur : ℕ)
  | unlinkStore (v : Visit K V) (prev cur next : ℕ)
  | countDown (v : Visit K V) (cur : ℕ)
  | freeEntry (v : Visit K V) (cur : ℕ) (value : V)
  /-- `len`: load of the count of a shard. -/
  | lenLoad (i : ℕ) (n : ℤ)
  /-- `try_detach`: `owned_by_current_thread` of the slot that was not free. -/
  | owned (i j : ℕ)
  /-- `try_detach` with every slot taken: the swap of a head, the count of its chain, the
  subtraction. -/
  | detachSwap (i j : ℕ) (chains : List ℕ)
  | detachCount (i j : ℕ) (chains : List ℕ) (chain cur count : ℕ)
  | detachSub (i j : ℕ) (chains : List ℕ) (chain count : ℕ)
  /-- `clear`: `owned_by_current_thread` of a slot. -/
  | inspect (i j : ℕ)
  /-- `clear`: the detached chains are dropped. -/
  | dropChains (i : ℕ) (chains : List ℕ)

section Code

variable {ι K V : Type*} [DecidableEq ι]

open Outcome

/-- A new map. -/
def Store.new : Store ι K V where
  heap := fun _ ↦ none
  heads := fun _ _ ↦ 0
  count := fun _ ↦ 0
  shardLock := fun _ ↦ .new
  slotLock := fun _ _ ↦ .new
  guards := fun _ ↦ []
  dangling := false

namespace Store

variable (s : Store ι K V) (i j : ℕ)

/-- The entry at an address is written. -/
def setEntry (p : ℕ) (e : Option (Entry K V)) : Store ι K V :=
  { s with heap := Function.update s.heap p e }

/-- The head of a slot is written. -/
def setHead (p : ℕ) : Store ι K V :=
  { s with heads := Function.update s.heads i (Function.update (s.heads i) j p) }

/-- The count of a shard moves by `n`. -/
def addCount (n : ℤ) : Store ι K V :=
  { s with count := Function.update s.count i (s.count i + n) }

/-- The lock of a shard is left as `l`. -/
def setShardLock (l : RawMutex.Store ι) : Store ι K V :=
  { s with shardLock := Function.update s.shardLock i l }

/-- The mutex of a slot is left as `l`. -/
def setSlotLock (l : SerialMutex.Store ι) : Store ι K V :=
  { s with slotLock := Function.update s.slotLock i (Function.update (s.slotLock i) j l) }

/-- An entry was accessed that is not there. -/
def astray : Store ι K V := { s with dangling := true }

/-- The guard `g` leaves the hands of `t`. -/
def giveUp (t : ι) (g : Guard ι) : Store ι K V :=
  { s with guards := Function.update s.guards t ((s.guards t).erase g) }

/-- The guard `g` comes into the hands of `t`. -/
def receive (t : ι) (g : Guard ι) : Store ι K V :=
  { s with guards := Function.update s.guards t (s.guards t ++ [g]) }

end Store

/-! ### The operations

The straight-line code between two accesses, under the words of the source. -/

/-- First access of a call that takes a shard shared. -/
def sharing (k : After ι K V) : Pc ι K V := .shard (.sharedFastLoad true) k

/-- The shared guard of a shard is dropped. -/
def leave (k : After ι K V) : Pc ι K V := .shard .unlockShared k

/-- First access of the release of a slot mutex. -/
def releasePc (read : Bool) (acquirer : ι) : SerialMutex.Pc ι :=
  if read then .unlockReadFast acquirer else .unlockWrite acquirer

/-- The slot guard of a call is dropped. -/
def unlock (t : ι) (v : Visit K V) (r : Ret ι K V) : Pc ι K V :=
  .slot (releasePc v.job.reads t) (.unlocked v r)

/-- The walk has come to the end of the chain. -/
def missing (t : ι) (v : Visit K V) : Pc ι K V :=
  match v.job with
  | .insert key value => .newEntry v key value
  | .remove _ => unlock t v (.value none)
  | .containsKey _ => unlock t v (.bool false)
  | .get _ | .getMut _ => unlock t v .absent
  | .asVec => unlock t v .unit

/-- The walk goes on at `cur`. -/
def walkNext (t : ι) (v : Visit K V) (prev cur : ℕ) : Pc ι K V :=
  if cur = 0 then missing t v else .walk v prev cur

/-- The walk has found the key at `cur`. -/
def hit (t : ι) (v : Visit K V) (prev cur : ℕ) : Pc ι K V :=
  match v.job with
  | .insert _ value => .replace v cur value
  | .remove _ => .unlinkLoad v prev cur
  | .containsKey _ => unlock t v (.bool true)
  | .get _ | .getMut _ => leave (.guard ⟨v.hold t, cur⟩)
  | .asVec => unlock t v .unit

/-- `as_vec` collects the entry it is at. -/
def Visit.see (v : Visit K V) (e : Entry K V) : Visit K V :=
  match v.job with
  | .asVec => { v with seen := v.seen ++ [(e.key, e.value)] }
  | _ => v

/-- Head of the loop in which `try_detach` drops the guards it has taken. -/
def backOutNext (t : ι) (i j taken : ℕ) (panics : Bool) : Pc ι K V :=
  if j < taken then .slot (.unlockWrite t) (.backOut i j taken panics)
  else .shard .unlockExclusiveFast (.backOut i panics)

/-- The count of the chain being detached goes on at `cur`. -/
def countNext (i j : ℕ) (chains : List ℕ) (chain cur count : ℕ) : Pc ι K V :=
  if cur = 0 then .detachSub i j chains chain count else .detachCount i j chains chain cur count

/-- A returned guard is handed to another thread. -/
def send (t u : ι) (g : Guard ι) (s : Store ι K V) : Option (Store ι K V) :=
  match SerialMutex.enter t
      (if g.hold.read then .sendRead g.hold.acquirer u else .sendWrite g.hold.acquirer u)
      (s.slotLock g.hold.shard g.hold.slot) with
  | none => none
  | some (l, _) => some (((s.giveUp t g).receive u g).setSlotLock g.hold.shard g.hold.slot l)

variable (L : Layout)

/-- `as_vec` goes on at slot `j` of its shard, or is done with the shard. -/
def visitNext (i j : ℕ) (seen : List (K × V)) : Pc ι K V :=
  if j < L.capacity then .slot (.lockFast true) (.locked ⟨.asVec, i, j, seen⟩)
  else leave (.nextShard i seen)

/-- The slot guard of a call was dropped. -/
def visited (v : Visit K V) (r : Ret ι K V) : Pc ι K V :=
  match v.job with
  | .asVec => visitNext L v.shard (v.slot + 1) v.seen
  | _ => leave (.finish v.shard r)

/-- The shard of a call was taken shared. -/
def visit (v : Visit K V) : Pc ι K V :=
  match v.job with
  | .asVec => visitNext L v.shard 0 v.seen
  | _ => .slot (.lockFast v.job.reads) (.locked v)

/-- `as_vec` goes on at shard `i`. -/
def asVecNext (i : ℕ) (seen : List (K × V)) : Outcome (Pc ι K V) (Ret ι K V) :=
  if i < L.shardAmount then goto (sharing (.visit ⟨.asVec, i, 0, seen⟩)) else ret (.entries seen)

/-- `len` goes on at shard `i`. -/
def lenNext (i : ℕ) (n : ℤ) : Outcome (Pc ι K V) (Ret ι K V) :=
  if i < L.shardAmount then goto (sharing (.len i n)) else ret (.len n)

/-- `clear` goes on at shard `i`. -/
def clearNext (i : ℕ) : Outcome (Pc ι K V) (Ret ι K V) :=
  if i < L.shardAmount then goto (.shard .tryLockExclusive (.attempt i)) else ret .unit

/-- Head of the loop in which `clear` inspects the slots. -/
def inspectNext (i j : ℕ) : Pc ι K V :=
  if j < L.capacity then .inspect i j else leave (.retry i)

/-- Head of the loop in which `try_detach` drops the guards of all slots. -/
def releaseNext (t : ι) (i j : ℕ) (chains : List ℕ) : Pc ι K V :=
  if j < L.capacity then .slot (.unlockWrite t) (.detached i j chains)
  else .shard .unlockExclusiveFast (.detached i chains)

/-- Head of the loop in which `try_detach` swaps the heads. -/
def swapNext (t : ι) (i j : ℕ) (chains : List ℕ) : Pc ι K V :=
  if j < L.capacity then .detachSwap i j chains else releaseNext L t i 0 chains

/-- Head of the loop in which `try_detach` takes the slots. -/
def detachNext (t : ι) (i j : ℕ) : Pc ι K V :=
  if j < L.capacity then .slot .tryWriteGuard (.attempt i j) else swapNext L t i 0 []

/-- The call goes on when an operation of a shard lock has returned. -/
def resume (t : ι) (s : Store ι K V) :
    After ι K V → RawMutex.Ret → Store ι K V × Outcome (Pc ι K V) (Ret ι K V)
  | .visit v, _ => (s, goto (visit L v))
  | .nextShard i seen, _ => (s, asVecNext L (i + 1) seen)
  | .len i n, _ => (s, goto (.lenLoad i n))
  | .lenNext i n, _ => (s, lenNext L (i + 1) n)
  | .finish _ r, _ => (s, ret r)
  | .guard g, _ => (s.receive t g, ret (.guard g))
  | .attempt i, .bool true => (s, goto (detachNext L t i 0))
  | .attempt i, _ => (s, goto (sharing (.inspect i)))
  | .inspect i, _ => (s, goto (inspectNext L i 0))
  | .retry i, _ => (s, goto (.shard .tryLockExclusive (.attempt i)))
  | .backOut _ true, _ => (s, ret (.panicked .clear))
  | .backOut i false, _ => (s, goto (.shard .tryLockExclusive (.attempt i)))
  | .detached i chains, _ => (s, goto (.dropChains i chains))

/-- The call goes on when an operation of a slot mutex has returned. -/
def resumeSlot (t : ι) (s : Store ι K V) :
    Next ι K V → SerialMutex.Ret → Store ι K V × Outcome (Pc ι K V) (Ret ι K V)
  | .locked v, .token _ => (s, goto (.loadHead v))
  | .locked v, _ => (s, goto (leave (.finish v.shard (.panicked .lock))))
  | .unlocked v r, .unit => (s, goto (visited L v r))
  | .unlocked v _, _ => (s, goto (leave (.finish v.shard (.panicked .lock))))
  | .dropped _, .unit => (s, ret .unit)
  | .dropped _, _ => (s, ret (.panicked .lock))
  | .attempt i j, .acquired true => (s, goto (detachNext L t i (j + 1)))
  | .attempt i j, _ => (s, goto (.owned i j))
  | .backOut i j taken panics, _ => (s, goto (backOutNext t i (j + 1) taken panics))
  | .detached i j chains, _ => (s, goto (releaseNext L t i (j + 1) chains))

section Keys

variable [BEq K] [Hashable K]

/-- The visit of a call on a key. -/
def visitOf (key : K) (job : Job K V) : Visit K V :=
  ⟨job, L.determineShard (hash key), L.getSlot (hash key), []⟩

/-- The test of a chain walk. -/
def Job.finds (job : Job K V) (e : Entry K V) : Bool :=
  match job with
  | .insert key _ | .remove key | .containsKey key | .get key
  | .getMut key => found (hash key) key e
  | .asVec => false

/-- Start of a call. A guard is used only by the thread that holds it. -/
def enter (t : ι) (op : Op ι K V) (s : Store ι K V) :
    Option (Store ι K V × Outcome (Pc ι K V) (Ret ι K V)) :=
  match op with
  | .insert key value => some (s, goto (sharing (.visit (visitOf L key (.insert key value)))))
  | .get key => some (s, goto (sharing (.visit (visitOf L key (.get key)))))
  | .getMut key => some (s, goto (sharing (.visit (visitOf L key (.getMut key)))))
  | .remove key => some (s, goto (sharing (.visit (visitOf L key (.remove key)))))
  | .containsKey key => some (s, goto (sharing (.visit (visitOf L key (.containsKey key)))))
  | .clear => some (s, clearNext L 0)
  | .len => some (s, lenNext L 0 0)
  | .asVec => some (s, asVecNext L 0 [])
  | .deref g =>
    if g ∈ s.guards t then
      match s.heap g.entry with
      | some e => some (s, ret (.shown e.value))
      | none => some (s.astray, ret .unit)
    else none
  | .write g v =>
    if g ∈ s.guards t ∧ g.hold.read = false then
      match s.heap g.entry with
      | some e => some (s.setEntry g.entry (some { e with value := v }), ret .unit)
      | none => some (s.astray, ret .unit)
    else none
  | .dropGuard g =>
    if g ∈ s.guards t then
      some (s.giveUp t g, goto (.slot (releasePc g.hold.read g.hold.acquirer) (.dropped g)))
    else none
  | .sendGuard g u =>
    if g ∈ s.guards t then (send t u g s).map fun s ↦ (s, ret .unit) else none

variable [Fintype ι] (ids : SerialMutex.OwnerIds ι) (adaptive : ℕ)

/-- The access at a program point. -/
def exec (t : ι) (ch : Choice ι) (s : Store ι K V) (pc : Pc ι K V) :
    Option (Store ι K V × Outcome (Pc ι K V) (Ret ι K V)) :=
  match pc with
  | .shard p k =>
    match RawMutex.exec adaptive t ch (s.shardLock k.target) p with
    | none => none
    | some (l, .goto p') => some (s.setShardLock k.target l, goto (.shard p' k))
    | some (l, .ret e) => some (resume L t (s.setShardLock k.target l) k e)
  | .slot p k =>
    match SerialMutex.exec ids adaptive t ch (s.slotLock k.target.1 k.target.2) p with
    | none => none
    | some (l, .goto p') => some (s.setSlotLock k.target.1 k.target.2 l, goto (.slot p' k))
    | some (l, .ret e) => some (resumeSlot L t (s.setSlotLock k.target.1 k.target.2 l) k e)
  | .loadHead v => some (s, goto (walkNext t v 0 (s.heads v.shard v.slot)))
  | .walk v prev cur =>
    match s.heap cur with
    | none => some (s.astray, goto pc)
    | some e =>
      if v.job.finds e then some (s, goto (hit t v prev cur))
      else some (s, goto (walkNext t (v.see e) cur e.next))
  | .replace v cur value =>
    match s.heap cur with
    | none => some (s.astray, goto pc)
    | some e =>
      some (s.setEntry cur (some { e with value := value }),
        goto (unlock t v (.value (some e.value))))
  | .newEntry v key value =>
    match ch with
    | .addr entry =>
      if entry ≠ 0 ∧ s.heap entry = none then
        some (s.setEntry entry (some ⟨key, value, hash key, s.heads v.shard v.slot⟩),
          goto (.linkEntry v entry))
      else none
    | _ => none
  | .linkEntry v entry => some (s.setHead v.shard v.slot entry, goto (.countUp v))
  | .countUp v => some (s.addCount v.shard 1, goto (unlock t v (.value none)))
  | .unlinkLoad v prev cur =>
    match s.heap cur with
    | none => some (s.astray, goto pc)
    | some e => some (s, goto (.unlinkStore v prev cur e.next))
  | .unlinkStore v prev cur next =>
    if prev = 0 then some (s.setHead v.shard v.slot next, goto (.countDown v cur))
    else
      match s.heap prev with
      | none => some (s.astray, goto pc)
      | some ep => some (s.setEntry prev (some { ep with next := next }), goto (.countDown v cur))
  | .countDown v cur =>
    match s.heap cur with
    | none => some (s.astray, goto pc)
    | some e => some (s.addCount v.shard (-1), goto (.freeEntry v cur e.value))
  | .freeEntry v cur value =>
    match s.heap cur with
    | none => some (s.astray, goto pc)
    | some _ => some (s.setEntry cur none, goto (unlock t v (.value (some value))))
  | .lenLoad i n => some (s, goto (leave (.lenNext i (n + s.count i))))
  | .owned i j =>
    some (s, goto (backOutNext t i 0 j
      ((s.slotLock i j).state &&& SerialWord.ownerMask == SerialWord.ownerBits (ids.id t))))
  | .detachSwap i j chains =>
    some (s.setHead i j 0, goto (countNext i j chains (s.heads i j) (s.heads i j) 0))
  | .detachCount i j chains chain cur count =>
    match s.heap cur with
    | none => some (s.astray, goto pc)
    | some e => some (s, goto (countNext i j chains chain e.next (count + 1)))
  | .detachSub i j chains chain count =>
    some (s.addCount i (-count), goto (swapNext L t i (j + 1) (chains ++ [chain])))
  | .inspect i j =>
    if (s.slotLock i j).state &&& SerialWord.ownerMask = SerialWord.ownerBits (ids.id t) then
      some (s, goto (leave (.finish i (.panicked .reentrant))))
    else some (s, goto (inspectNext L i (j + 1)))
  | .dropChains i [] => some (s, clearNext L (i + 1))
  | .dropChains i (cur :: chains) =>
    if cur = 0 then some (s, goto (.dropChains i chains))
    else
      match s.heap cur with
      | none => some (s.astray, goto pc)
      | some e => some (s.setEntry cur none, goto (.dropChains i (e.next :: chains)))

/-- `AtomicHashMap` with the layout `L` on a machine reporting `adaptive` units of parallelism. -/
def atomicHashMap : Object ι (Store ι K V) (Pc ι K V) (Op ι K V) (Ret ι K V) where
  enter := enter L
  exec := exec L ids adaptive

end Keys

/-- A new map with every thread outside. -/
def init : Config ι (Store ι K V) (Pc ι K V) := ⟨.new, fun _ ↦ none⟩

omit [DecidableEq ι] in
theorem setEntry_self (s : Store ι K V) (a : ℕ) (e : Option (Entry K V)) :
    (s.setEntry a e).heap a = e :=
  Function.update_self ..

omit [DecidableEq ι] in
theorem setEntry_of_ne (s : Store ι K V) {a b : ℕ} (e : Option (Entry K V)) (h : a ≠ b) :
    (s.setEntry b e).heap a = s.heap a :=
  Function.update_of_ne h _ _

/-! ### What an access does

The accesses apart from those of the locks, as one relation, for the proofs that go through them. -/

/-- The access at a program point is to the entry at address `a`. -/
def Pc.Derefs (a : ℕ) : Pc ι K V → Prop
  | .walk _ _ cur | .replace _ cur _ | .unlinkLoad _ _ cur | .countDown _ cur | .freeEntry _ cur _
    | .detachCount _ _ _ _ cur _ => cur = a
  | .unlinkStore _ prev _ _ => prev ≠ 0 ∧ prev = a
  | .dropChains _ (cur :: _) => cur ≠ 0 ∧ cur = a
  | _ => False

variable [BEq K] [Hashable K] {L : Layout} {ids : SerialMutex.OwnerIds ι} {t : ι}
  {s s' : Store ι K V}
  {p : Pc ι K V} {o : Outcome (Pc ι K V) (Ret ι K V)}

variable (L ids t s) in
/-- **What an access outside of the locks does**: from a program point, the store it leaves and
where its call goes on. -/
inductive Access : Pc ι K V → Store ι K V → Outcome (Pc ι K V) (Ret ι K V) → Prop where
  | astray {p : Pc ι K V} {a : ℕ} (hp : p.Derefs a)
    (ha : s.heap a = none) : Access p s.astray (goto p)
  | loadHead {v : Visit K V} : Access (.loadHead v) s
    (goto (walkNext t v 0 (s.heads v.shard v.slot)))
  | hit {v : Visit K V} {prev cur : ℕ} {e : Entry K V} (he : s.heap cur = some e)
      (hf : v.job.finds e = true) : Access (.walk v prev cur) s (goto (hit t v prev cur))
  | pass {v : Visit K V} {prev cur : ℕ} {e : Entry K V} (he : s.heap cur = some e)
      (hf : ¬ v.job.finds e = true) :
      Access (.walk v prev cur) s (goto (walkNext t (v.see e) cur e.next))
  | replace {v : Visit K V} {cur : ℕ} {value : V} {e : Entry K V} (he : s.heap cur = some e) :
      Access (.replace v cur value) (s.setEntry cur (some { e with value := value }))
        (goto (unlock t v (.value (some e.value))))
  | newEntry {v : Visit K V} {key : K} {value : V} {entry : ℕ} (hne : entry ≠ 0)
      (hfree : s.heap entry = none) :
      Access (.newEntry v key value)
        (s.setEntry entry (some ⟨key, value, hash key, s.heads v.shard v.slot⟩))
          (goto (.linkEntry v entry))
  | linkEntry {v : Visit K V} {entry : ℕ} :
      Access (.linkEntry v entry) (s.setHead v.shard v.slot entry) (goto (.countUp v))
  | countUp {v : Visit K V} : Access (.countUp v) (s.addCount v.shard 1)
    (goto (unlock t v (.value none)))
  | unlinkLoad {v : Visit K V} {prev cur : ℕ} {e : Entry K V} (he : s.heap cur = some e) :
      Access (.unlinkLoad v prev cur) s (goto (.unlinkStore v prev cur e.next))
  | unlinkHead {v : Visit K V} {cur next : ℕ} :
      Access (.unlinkStore v 0 cur next) (s.setHead v.shard v.slot next) (goto (.countDown v cur))
  | unlinkAfter {v : Visit K V} {prev cur next : ℕ} {e : Entry K V} (hne : prev ≠ 0)
      (he : s.heap prev = some e) :
      Access (.unlinkStore v prev cur next) (s.setEntry prev (some { e with next := next }))
        (goto (.countDown v cur))
  | countDown {v : Visit K V} {cur : ℕ} {e : Entry K V} (he : s.heap cur = some e) :
      Access (.countDown v cur) (s.addCount v.shard (-1)) (goto (.freeEntry v cur e.value))
  | freeEntry {v : Visit K V} {cur : ℕ} {value : V} {e : Entry K V} (he : s.heap cur = some e) :
      Access (.freeEntry v cur value) (s.setEntry cur none)
        (goto (unlock t v (.value (some value))))
  | lenLoad {i : ℕ} {n : ℤ} : Access (.lenLoad i n) s (goto (leave (.lenNext i (n + s.count i))))
  | owned {i j : ℕ} :
      Access (.owned i j) s (goto (backOutNext t i 0 j
        ((s.slotLock i j).state &&& SerialWord.ownerMask == SerialWord.ownerBits (ids.id t))))
  | detachSwap {i j : ℕ} {chains : List ℕ} :
      Access (.detachSwap i j chains) (s.setHead i j 0)
        (goto (countNext i j chains (s.heads i j) (s.heads i j) 0))
  | detachCount {i j : ℕ} {chains : List ℕ} {chain cur count : ℕ} {e : Entry K V}
    (he : s.heap cur = some e) :
      Access (.detachCount i j chains chain cur count) s
        (goto (countNext i j chains chain e.next (count + 1)))
  | detachSub {i j : ℕ} {chains : List ℕ} {chain count : ℕ} :
      Access (.detachSub i j chains chain count) (s.addCount i (-count))
        (goto (swapNext L t i (j + 1) (chains ++ [chain])))
  | reentrant {i j : ℕ}
      (hown : (s.slotLock i j).state &&& SerialWord.ownerMask = SerialWord.ownerBits (ids.id t)) :
      Access (.inspect i j) s (goto (leave (.finish i (.panicked .reentrant))))
  | inspect {i j : ℕ}
      (hother : ¬ (s.slotLock i j).state &&& SerialWord.ownerMask =
        SerialWord.ownerBits (ids.id t)) :
      Access (.inspect i j) s (goto (inspectNext L i (j + 1)))
  | dropped {i : ℕ} : Access (.dropChains i []) s (clearNext L (i + 1))
  | dropNull {i : ℕ} {chains : List ℕ} : Access (.dropChains i (0 :: chains)) s
    (goto (.dropChains i chains))
  | dropEntry {i cur : ℕ} {chains : List ℕ} {e : Entry K V} (hne : cur ≠ 0)
    (he : s.heap cur = some e) :
      Access (.dropChains i (cur :: chains)) (s.setEntry cur none)
        (goto (.dropChains i (e.next :: chains)))

/-- **An access is one of a shard lock, of a slot mutex, or of the map's own.** -/
theorem exec_cases [Fintype ι] {adaptive : ℕ} {ch : Choice ι}
    (h : exec L ids adaptive t ch s p = some (s', o)) :
    (∃ q k, p = .shard q k) ∨ (∃ q k, p = .slot q k) ∨ Access L ids t s p s' o := by
  cases p with
  | shard q k => exact Or.inl ⟨q, k, rfl⟩
  | slot q k => exact Or.inr (Or.inl ⟨q, k, rfl⟩)
  | loadHead v | linkEntry v entry | countUp v | lenLoad i n | owned i j | detachSwap i j chains
    | detachSub i j chains chain count =>
    cases h
    exact Or.inr (Or.inr (by constructor))
  | walk v prev cur =>
    simp only [exec] at h
    split at h
    · rename_i hnone
      cases h
      exact Or.inr (Or.inr (.astray rfl hnone))
    · rename_i e he
      split_ifs at h with hf
      · cases h
        exact Or.inr (Or.inr (.hit he hf))
      · cases h
        exact Or.inr (Or.inr (.pass he hf))
  | replace v cur value | unlinkLoad v prev cur | countDown v cur | freeEntry v cur value
    | detachCount i j chains chain cur count =>
    simp only [exec] at h
    split at h
    · rename_i hnone
      cases h
      exact Or.inr (Or.inr (.astray rfl hnone))
    · rename_i e he
      cases h
      exact Or.inr (Or.inr (by constructor; exact he))
  | newEntry v key value =>
    simp only [exec] at h
    split at h
    · split_ifs at h with hfree
      cases h
      exact Or.inr (Or.inr (.newEntry hfree.1 hfree.2))
    · cases h
  | unlinkStore v prev cur next =>
    simp only [exec] at h
    split_ifs at h with hprev
    · cases h
      subst hprev
      exact Or.inr (Or.inr .unlinkHead)
    · split at h
      · rename_i hnone
        cases h
        exact Or.inr (Or.inr (.astray ⟨hprev, rfl⟩ hnone))
      · rename_i e he
        cases h
        exact Or.inr (Or.inr (.unlinkAfter hprev he))
  | inspect i j =>
    simp only [exec] at h
    split_ifs at h with hown
    · cases h
      exact Or.inr (Or.inr (.reentrant hown))
    · cases h
      exact Or.inr (Or.inr (.inspect hown))
  | dropChains i chains =>
    cases chains with
    | nil =>
      cases h
      exact Or.inr (Or.inr .dropped)
    | cons cur chains =>
      simp only [exec] at h
      split_ifs at h with hcur
      · cases h
        subst hcur
        exact Or.inr (Or.inr .dropNull)
      · split at h
        · rename_i hnone
          cases h
          exact Or.inr (Or.inr (.astray ⟨hcur, rfl⟩ hnone))
        · rename_i e he
          cases h
          exact Or.inr (Or.inr (.dropEntry hcur he))

end Code

end Shared

end AtomicHashMap

end Crossync
