import Crossync.Interleave.Closure
import Crossync.Interleave.History
import Crossync.Core.SerialHolds

/-!
# The generic atomic `Atomic`

A value behind a `SerialMutex`. Every method takes a read guard or a write guard, runs some code on
the value and drops the guard, also when that code unwinds: it is a `Section`, a kind of guard with
a closure. The code of a method is its own accesses to the value and the closure that the caller
supplies, which may panic and may call the methods of the same atomic again.

The accesses are not atomic: each `get` and `set` of a closure is a step of its own, so that a
method that reads and then writes takes two, and nothing but the lock keeps other threads out in
between.

## What is not code

`called` is the section each thread has called last, `log` the sections that have run to their end,
in that order, with their results. A section is logged at the step that ends its code, while its
guard is still held; sections that a closure called back are part of it and not logged.

Values are plain data: `clone` copies and `==` is decidable equality. `store` drops the replaced
value after the guard; whatever its destructor does there is a call of its own. `into_inner` and the
`get_mut` of an owned atomic need no guard and are left out.

## Why a closure is a tree

A method runs code of the caller under its guard, and that code may call the same atomic again, from
any depth. The tree of `Interleave.Closure` has a node for every access and every call back, so the
program point of a thread is a closure that is left to run and a stack of closures that wait. There
is no bound on the depth.
-/

open Interleave

namespace Crossync

namespace Atomic

universe u v

/-- A method call: the kind of its guard, and the code that runs under it. -/
structure Section (α : Type u) (ρ : Type v) where
  read : Bool
  body : Closure α ρ read

/-! ### The methods

Every method of the source as a section: the kind of guard it takes, and its code as a closure. -/

/-- What methods return, with `ρ` for the results of closures. -/
inductive Res (α : Type u) (ρ : Type v) where
  | unit
  | bool (b : Bool)
  | size (n : ℕ)
  | value (x : α)
  | opt (x : Option α)
  /-- `Ok` and `Err` of a value. -/
  | ok (x : α)
  | err (x : α)
  /-- `Ok(())` and `Err(())`. -/
  | done
  | failed
  | user (r : ρ)
  deriving DecidableEq

section Methods

variable {α : Type u} {ρ : Type v}

open Closure

/-- `with` -/
def with_ (f : Closure α ρ true) : Section α ρ := ⟨true, f⟩

/-- `with_mut`, `update` -/
def withMut (f : Closure α ρ false) : Section α ρ := ⟨false, f⟩

/-- `replace_with`; the closure returns the new value. -/
def replaceWith (f : Closure α (Res α ρ) true) : Section α (Res α ρ) :=
  ⟨false, f.thenMut fun
    | .value new => get fun old ↦ set new (ret (.value old))
    | _ => panic⟩

/-- `try_update`; the closure returns a `bool`. -/
def tryUpdate (f : Closure α (Res α ρ) false) : Section α (Res α ρ) :=
  ⟨false, f.thenMut fun
    | .bool true => ret .done
    | .bool false => ret .failed
    | _ => panic⟩

/-- `load`, `load_copy` -/
def load : Section α (Res α ρ) := ⟨true, get fun x ↦ ret (.value x)⟩

/-- `swap`, `swap_copy` -/
def swap (new : α) : Section α (Res α ρ) := ⟨false, get fun old ↦ set new (ret (.value old))⟩

/-- `store` -/
def store (new : α) : Section α (Res α ρ) := ⟨false, get fun _ ↦ set new (ret .unit)⟩

/-- `take_default` -/
def takeDefault [Inhabited α] : Section α (Res α ρ) := swap default

/-- The code of `compare_exchange`. -/
def compareExchangeBody [DecidableEq α] (current new : α) : Closure α (Res α ρ) false :=
  get fun x ↦ if x = current then set new (ret (.ok x)) else ret (.err x)

/-- `compare_exchange`, `compare_exchange_weak` -/
def compareExchange [DecidableEq α] (current new : α) : Section α (Res α ρ) :=
  ⟨false, compareExchangeBody current new⟩

/-- `compare_and_swap` -/
def compareAndSwap [DecidableEq α] (current new : α) : Section α (Res α ρ) :=
  ⟨false, (compareExchangeBody current new).thenMut fun
    | .ok x | .err x => ret (.value x)
    | r => ret r⟩

/-- `fetch_update`; the closure sees the old value and returns an `Option`. -/
def fetchUpdate (f : Closure α (Res α ρ) true) : Section α (Res α ρ) :=
  ⟨false, get fun old ↦ f.thenMut fun
    | .opt (some new) => set new (ret (.ok old))
    | .opt none => ret (.err old)
    | _ => panic⟩

/-- The methods that store `g` of the old value and return the old one; `none` is a panic of the
operator. -/
def fetchWith (g : α → Option α) : Section α (Res α ρ) :=
  ⟨false, get fun old ↦ match g old with
    | some new => set new (ret (.value old))
    | none => panic⟩

/-- `fetch_add`, with the `+` of the type. -/
def fetchAdd (add : α → α → Option α) (x : α) : Section α (Res α ρ) := fetchWith fun old ↦ add old x

/-- `fetch_sub`, with the `-` of the type. -/
def fetchSub (sub : α → α → Option α) (x : α) : Section α (Res α ρ) := fetchWith fun old ↦ sub old x

/-- `fetch_and_bits`, with the `&` of the type. -/
def fetchAndBits (and : α → α → Option α) (x : α) : Section α (Res α ρ) :=
  fetchWith fun old ↦ and old x

/-- `fetch_or_bits`, with the `|` of the type. -/
def fetchOrBits (or : α → α → Option α) (x : α) : Section α (Res α ρ) :=
  fetchWith fun old ↦ or old x

/-- `fetch_xor_bits`, with the `^` of the type. -/
def fetchXorBits (xor : α → α → Option α) (x : α) : Section α (Res α ρ) :=
  fetchWith fun old ↦ xor old x

/-- `fetch_max` and `fetch_min`: the value is stored if it is `better` than the old one. -/
def fetchIf (better : α → α → Bool) (x : α) : Section α (Res α ρ) :=
  ⟨false, get fun old ↦ if better x old then set x (ret (.value old)) else ret (.value old)⟩

/-- `fetch_max`: `val > old`. -/
def fetchMax [LT α] [DecidableLT α] (x : α) : Section α (Res α ρ) := fetchIf (fun x old ↦ old < x) x

/-- `fetch_min`: `val < old`. -/
def fetchMin [LT α] [DecidableLT α] (x : α) : Section α (Res α ρ) := fetchIf (fun x old ↦ x < old) x

/-- `fetch_and` of `bool` -/
def fetchAnd (b : Bool) : Section Bool (Res Bool ρ) := fetchWith fun old ↦ some (old && b)

/-- `fetch_or` of `bool` -/
def fetchOr (b : Bool) : Section Bool (Res Bool ρ) := fetchWith fun old ↦ some (old || b)

/-- `fetch_xor` of `bool` -/
def fetchXor (b : Bool) : Section Bool (Res Bool ρ) := fetchWith fun old ↦ some (old != b)

/-- `fetch_nand` of `bool` -/
def fetchNand (b : Bool) : Section Bool (Res Bool ρ) := fetchWith fun old ↦ some !(old && b)

/-- `fetch_nand` of the integers, which are `w` bits wide. -/
def fetchNandBits {w : ℕ} (x : BitVec w) : Section (BitVec w) (Res (BitVec w) ρ) :=
  fetchWith fun old ↦ some (~~~(old &&& x))

/-- A method that applies a function in place. -/
def modify (g : α → α) : Section α (Res α ρ) := ⟨false, get fun x ↦ set (g x) (ret .unit)⟩

/-- A method that reads something off. -/
def inspect (g : α → Res α ρ) : Section α (Res α ρ) := ⟨true, get fun x ↦ ret (g x)⟩

/-- `push_str`, `clear`, `len` and `is_empty` of a `String`. -/
def pushStr (s : String) : Section String (Res String ρ) := modify fun x ↦ x ++ s
def clearString : Section String (Res String ρ) := modify fun _ ↦ ""
def stringLen : Section String (Res String ρ) := inspect fun x ↦ .size x.utf8ByteSize
def stringIsEmpty : Section String (Res String ρ) := inspect fun x ↦ .bool x.isEmpty

/-- `push`, `pop`, `len`, `is_empty` and `clear` of a `Vec`. -/
def vecPush (x : α) : Section (List α) (Res (List α) (Option α)) := modify fun xs ↦ xs ++ [x]
def vecPop : Section (List α) (Res (List α) (Option α)) :=
  ⟨false, get fun xs ↦ set xs.dropLast (ret (.user xs.getLast?))⟩
def vecLen : Section (List α) (Res (List α) (Option α)) := inspect fun xs ↦ .size xs.length
def vecIsEmpty : Section (List α) (Res (List α) (Option α)) := inspect fun xs ↦ .bool xs.isEmpty
def vecClear : Section (List α) (Res (List α) (Option α)) := modify fun _ ↦ []

/-- The loop of `extend`: one element after the other, until the iterator ends or panics. -/
def extendBody (panics : Bool) : List α → Closure (List α) (Res (List α) (Option α)) false
  | [] => if panics then panic else ret .unit
  | x :: xs => get fun ys ↦ set (ys ++ [x]) (extendBody panics xs)

/-- `extend` of a `Vec` -/
def vecExtend (xs : List α) (panics : Bool) : Section (List α) (Res (List α) (Option α)) :=
  ⟨false, extendBody panics xs⟩

/-- `is_some`, `is_none`, `take` and `replace` of an `Option`. -/
def optionIsSome : Section (Option α) (Res (Option α) ρ) := inspect fun x ↦ .bool x.isSome
def optionIsNone : Section (Option α) (Res (Option α) ρ) := inspect fun x ↦ .bool x.isNone
def optionTake : Section (Option α) (Res (Option α) ρ) := swap none
def optionReplace (x : α) : Section (Option α) (Res (Option α) ρ) := swap (some x)

end Methods

/-! ### Running a method

A frame for every closure that waits for a call back, and the accesses of the lock in between. -/

/-- `Atomic`, with the records described above; the result of a panic is `none`. -/
structure Store (ι : Type*) (α : Type u) (ρ : Type v) where
  mutex : SerialMutex.Store ι
  value : α
  called : ι → Option (Section α ρ)
  log : List (Occurrence ι (Section α ρ) (Option ρ))

/-- Program points, named after the access that comes next; the closures that wait for a call back
are on the stack `st`. -/
inductive Pc (ι : Type*) (α : Type u) (ρ : Type v) where
  /-- Inside `lock` of a guard. -/
  | lock (p : SerialMutex.Pc ι) (read : Bool) (f : Closure α ρ read) (st : List (Frame α ρ))
  /-- The closure reads the value, or writes it. -/
  | get (read : Bool) (k : α → Closure α ρ read) (st : List (Frame α ρ))
  | set (x : α) (k : Closure α ρ false) (st : List (Frame α ρ))
  /-- Inside the drop of a guard; the closure has ended with `r`. -/
  | unlock (p : SerialMutex.Pc ι) (read : Bool) (r : Option ρ) (st : List (Frame α ρ))

section Code

variable {ι : Type*} {α : Type u} {ρ : Type v} [DecidableEq ι] (ids : SerialMutex.OwnerIds ι)
  (adaptive : ℕ)

open Outcome

/-- `Atomic::new` -/
def Store.new (x : α) : Store ι α ρ := ⟨.new, x, fun _ ↦ none, []⟩

/-- `Drop for SerialGuard`, on the thread that acquired the guard. -/
def dropGuard (t : ι) (read : Bool) : SerialMutex.Pc ι :=
  if read then .unlockReadFast t else .unlockWrite t

/-- The next access of a closure: one of its own, the drop of its guard, or the lock of a call
back. -/
def next (t : ι) {read : Bool} (f : Closure α ρ read) (st : List (Frame α ρ)) : Pc ι α ρ :=
  match f with
  | .ret r => .unlock (dropGuard t read) read (some r) st
  | .panic => .unlock (dropGuard t read) read none st
  | .get k => .get read k st
  | .set x k => .set x k st
  | .call inner g k => .lock (.lockFast inner) inner g (⟨read, k⟩ :: st)

/-- A section has ended with `r`: the closure that called it goes on, or the method returns. -/
def resume (t : ι) (r : Option ρ) : List (Frame α ρ) → Outcome (Pc ι α ρ) (Option ρ)
  | [] => ret r
  | fr :: st => goto (next t (fr.k r) st)

/-- The code of the method of `t` has ended with `r`. -/
def Store.commit (s : Store ι α ρ) (t : ι) (r : Option ρ) : Store ι α ρ :=
  match s.called t with
  | some op => { s with log := s.log ++ [⟨t, op, r⟩] }
  | none => s

/-- The store after a step that leads to `o`: a section whose code has just ended is logged. -/
def settle (t : ι) (s : Store ι α ρ) (o : Outcome (Pc ι α ρ) (Option ρ)) :
    Store ι α ρ × Outcome (Pc ι α ρ) (Option ρ) :=
  match o with
  | .goto (.unlock _ _ r []) => (s.commit t r, o)
  | _ => (s, o)

/-- Start of a call. -/
def enter (t : ι) (op : Section α ρ) (s : Store ι α ρ) :
    Option (Store ι α ρ × Outcome (Pc ι α ρ) (Option ρ)) :=
  some ({ s with called := Function.update s.called t (some op) },
    goto (.lock (.lockFast op.read) op.read op.body []))

/-- The access at a program point. A panic of `lock` unwinds into the closure that called back. -/
def exec (t : ι) (ch : Choice ι) (s : Store ι α ρ) :
    Pc ι α ρ → Option (Store ι α ρ × Outcome (Pc ι α ρ) (Option ρ))
  | .lock p read f st =>
    match SerialMutex.exec ids adaptive t ch s.mutex p with
    | none => none
    | some (m, .goto p') => some ({ s with mutex := m }, goto (.lock p' read f st))
    | some (m, .ret (.token _)) => some (settle t { s with mutex := m } (goto (next t f st)))
    | some (m, .ret _) => some (settle t { s with mutex := m } (resume t none st))
  | .get _ k st => some (settle t s (goto (next t (k s.value) st)))
  | .set x k st => some (settle t { s with value := x } (goto (next t k st)))
  | .unlock p read r st =>
    match SerialMutex.exec ids adaptive t ch s.mutex p with
    | none => none
    | some (m, .goto p') => some ({ s with mutex := m }, goto (.unlock p' read r st))
    | some (m, .ret _) => some (settle t { s with mutex := m } (resume t r st))

/-- `Atomic` -/
def atomic : Object ι (Store ι α ρ) (Pc ι α ρ) (Section α ρ) (Option ρ) where
  enter := enter
  exec := exec ids adaptive

/-- A new atomic with every thread outside. -/
def init (x : α) : Config ι (Store ι α ρ) (Pc ι α ρ) := ⟨.new x, fun _ ↦ none⟩

end Code

end Atomic

end Crossync
