import Crossync.Interleave.Recording
import Crossync.Atomic.HashMapEffects

/-!
# The history of a shared `AtomicHashMap`

The map with the history of what has taken effect in it. However its calls interleave, the history
is legal for a finite map, and the finite map that it leaves is the one behind the chains: a key has
a value exactly if an entry with the key and the value is linked in the slot of the key.

## Why a recorded object

The history is no part of the store of the map. It is recorded beside it (`Interleave.Recording`),
so the model of the code stays as it is, and the theorem about recorded runs is one about all runs.
-/

open Interleave Linked

namespace Crossync

namespace AtomicHashMap

namespace Shared

variable {ι K V : Type*} [DecidableEq ι] [BEq K] [Hashable K]

/-- A new map, with an empty history. -/
def recordedInit : Config ι (Recorded (Store ι K V) (Effect ι K V)) (Pc ι K V) :=
  ⟨⟨.new, []⟩, fun _ ↦ none⟩

/-- The finite map that a history leaves. -/
def leaves (L : Layout) (es : List (Effect ι K V)) : K → Option V :=
  final (apply L) (fun _ ↦ none) es

section Represents

variable {L : Layout}

variable (L) in
/-- **The history is that of the map**: it is legal, the slots list what it leaves, and every call
knows what it has to. -/
structure Represents (c : Config ι (Recorded (Store ι K V) (Effect ι K V)) (Pc ι K V)) : Prop where
  legal : Legal (apply L) (fun _ ↦ none) c.shared.log
  content : ∃ l, Lists L c.shared.store l ∧ Reads L (leaves L c.shared.log) l
  informed : ∀ t p, c.pcs t = some p → p.Informed L c.shared.store

variable {c : Config ι (Recorded (Store ι K V) (Effect ι K V)) (Pc ι K V)}
  {s' : Recorded (Store ι K V) (Effect ι K V)} {t : ι} {o : Outcome (Pc ι K V) (Ret ι K V)}
  {es : List (Effect ι K V)}

/-- A step that does to the content what it adds to the history. -/
theorem Represents.step (h : Represents L c)
    (hs : ∀ l, Lists L c.shared.store l → Settles L l s'.store o es)
    (hlog : s'.log = c.shared.log ++ es) (hother : ∀ u q, u ≠ t → c.pcs u = some q →
      q.Informed L s'.store) : Represents L (c.put t (s', o)) := by
  obtain ⟨l, hl, hreads⟩ := h.content
  obtain ⟨l', hl', hfollows, hq⟩ := hs l hl
  obtain ⟨hlegal, hreads'⟩ := hfollows _ hreads
  refine ⟨?_, ⟨l', hl', ?_⟩, fun u q hu ↦ ?_⟩
  · rw [Config.put_shared, hlog]
    exact h.legal.append hlegal
  · rw [Config.put_shared, hlog, leaves, final_append]
    exact hreads'
  · by_cases hut : u = t
    · subst hut
      exact hq q (by simpa using hu)
    · rw [Config.put_pcs_of_ne _ _ hut] at hu
      exact hother u q hut hu

omit [DecidableEq ι] in
theorem represents_init : Represents L (recordedInit : Config ι _ (Pc ι K V)) where
  legal := trivial
  content := by
    refine ⟨fun _ _ ↦ [],
      ⟨fun a e he ↦ ?_, fun i j ↦ ⟨[], rfl, rfl⟩, fun i j x hx ↦ ?_, fun i j ↦ .nil⟩, fun _ ↦ rfl⟩
    · cases he
    · cases hx
  informed _ _ hp := by cases hp

end Represents

section Runs

variable [Fintype ι] {L : Layout} {ids : SerialMutex.OwnerIds ι} {adaptive : ℕ}
  {c : Config ι (Recorded (Store ι K V) (Effect ι K V)) (Pc ι K V)}

variable (L ids adaptive) in
/-- The map with its history. -/
def recorded : Object ι (Recorded (Store ι K V) (Effect ι K V)) (Pc ι K V) (Op ι K V) (Ret ι K V) :=
  (atomicHashMap L ids adaptive).recording onCall (onExec L)

/-- A run with its history is a run. -/
theorem reach_erase (h : Reach (recorded L ids adaptive) Always recordedInit c) :
    Reach (atomicHashMap L ids adaptive) Always init c.erase :=
  h.erase fun _ _ _ ↦ trivial

/-- And every run has one. -/
theorem reach_recorded {d : Config ι (Store ι K V) (Pc ι K V)}
    (h : Reach (atomicHashMap L ids adaptive) Always init d) :
    ∃ c, Reach (recorded L ids adaptive) Always recordedInit c ∧ c.erase = d :=
  Reach.exists_recorded (fun _ _ _ ↦ trivial) h

variable [EquivBEq K] [LawfulHashable K]

/-- **Along every run, the history is that of the map.** -/
theorem reach_represents (hL : 0 < L.capacity)
    (h : Reach (recorded L ids adaptive) Always recordedInit c) :
    Represents L c := by
  refine h.invariant (I := Represents L) represents_init ?_ ?_
  · rintro c t op ⟨s', o⟩ hr hI - hpc he
    obtain ⟨hlk, A, E, hs⟩ := reach_shape hL (reach_erase hr)
    obtain ⟨he, hlog⟩ := Object.recording_enter he
    exact hI.step (fun l hl ↦ enter_settles hl hs he) hlog fun u q hu hq ↦
      (hI.informed u q hq).untouched (enter_untouched hs hlk he hu hq) hs hq
  · rintro c t ch p ⟨s', o⟩ hr hI - hpc he
    obtain ⟨hlk, A, E, hs⟩ := reach_shape hL (reach_erase hr)
    obtain ⟨he, hlog⟩ := Object.recording_exec he
    exact hI.step (fun l hl ↦ exec_settles hl hs hpc (hI.informed t p hpc) he) hlog fun u q hu hq ↦
      (hI.informed u q hq).untouched (exec_untouched hs hlk hL hpc he hu hq) hs hq

/-- An entry with the key and the value is linked in the slot of the key. -/
def Maps (L : Layout) (s : Store ι K V) (key : K) (v : V) : Prop :=
  ∃ a e, InSlot s (L.home key).1 (L.home key).2 a ∧ s.heap a = some e ∧ (e.key == key) = true ∧
    e.value = v

/-- **The content of a shared map.** In every run of a map that the constructor accepts, with
whatever interleaving of its calls and of accesses through its guards, the history of what took
effect is legal for a finite map. What it leaves is the content: a key has a value exactly if an
entry with both is linked in the slot of the key, and every linked entry is in the slot of its key
and alone there with that key. -/
theorem content_linearizable {capacity shardAmount : UInt64}
    (hL : withCapacityHasherAndShardAmount capacity shardAmount = .ok L)
    (h : Reach (recorded L ids adaptive) Always recordedInit c) :
    Legal (apply L) (fun _ ↦ none) c.shared.log ∧
      (∀ key v, leaves L c.shared.log key = some v ↔ Maps L c.shared.store key v) ∧
      (∀ i j a, InSlot c.shared.store i j a →
        ∃ e, c.shared.store.heap a = some e ∧ L.home e.key = (i, j) ∧
          leaves L c.shared.log e.key = some e.value) ∧
      ∀ i j a b e f, InSlot c.shared.store i j a → InSlot c.shared.store i j b →
        c.shared.store.heap a = some e → c.shared.store.heap b = some f → (e.key == f.key) = true →
          a = b := by
  have hcap : 0 < L.capacity := (valid_of_ok hL).capacity_pos
  have hI := reach_represents hcap h
  obtain ⟨-, A, E, hs⟩ := reach_shape hcap (reach_erase h)
  obtain ⟨l, hl, hreads⟩ := hI.content
  refine ⟨hI.legal, fun key v ↦ ?_, fun i j a ha ↦ ?_, fun i j a b e f ha hb he hf hk ↦ ?_⟩
  · rw [hreads key, Spec.lookup_eq_some_iff (hl.distinct _ _)]
    constructor
    · rintro ⟨k, hmem, hk⟩
      obtain ⟨as, has, hlist⟩ := hl.slot (L.home key).1 (L.home key).2
      rw [hlist] at hmem
      obtain ⟨a, ha, e, he, hpair⟩ := mem_pairs.1 hmem
      obtain ⟨rfl, rfl⟩ := Prod.mk.inj hpair
      exact ⟨a, e, ⟨as, has, ha⟩, he, hk, rfl⟩
    · rintro ⟨a, e, ⟨as, has, ha⟩, he, hk, rfl⟩
      refine ⟨e.key, ?_, hk⟩
      rw [hl.eq_pairs has]
      exact mem_pairs.2 ⟨a, ha, e, he, rfl⟩
  · obtain ⟨as, has, hmem⟩ := ha
    obtain ⟨-, e, he⟩ := has.exists_of_mem hmem
    have hpair : (e.key, e.value) ∈ l i j := by
      rw [hl.eq_pairs has]
      exact mem_pairs.2 ⟨a, hmem, e, he, rfl⟩
    have hhome := hl.home_of_beq hpair (BEq.refl e.key)
    exact ⟨e, he, hhome, hreads.entry hl hs (hs.inSlot_iff.1 ⟨as, has, hmem⟩) he⟩
  · obtain ⟨as, has, ha⟩ := ha
    obtain ⟨bs, hbs, hb⟩ := hb
    rw [hbs.unique has] at hb
    have hd := hl.distinct i j
    rw [hl.eq_pairs has] at hd
    exact eq_of_beq_key hd ha hb he hf hk

end Runs

/-- The content with a guard live on it. -/
theorem content_linearizable_guarded :
    withCapacityHasherAndShardAmount 2 2 = .ok twoShards ∧
    ∃ c : Config (Fin 2) (Recorded (Store (Fin 2) ℕ ℕ) (Effect (Fin 2) ℕ ℕ)) (Pc (Fin 2) ℕ ℕ),
      Reach (recorded twoShards SerialMutex.twoIds 4) Always recordedInit c ∧
      c.shared.log.length = 2 ∧ c.shared.store.guards 1 = [laterGuard] ∧
        Maps twoShards c.shared.store 0 8 := by
  have hL : withCapacityHasherAndShardAmount 2 2 = .ok twoShards := by decide
  obtain ⟨c, hc, ht⟩ :=
    Reach.exists_of_replay (recorded twoShards SerialMutex.twoIds 4) Always recordedInit
    guardSchedule
      (fun c ↦ decide (c.shared.log.length = 2 ∧ c.shared.store.guards 1 = [laterGuard] ∧
      leaves twoShards c.shared.log 0 = some 8)) (by decide +kernel)
  obtain ⟨hlen, hguards, hleaves⟩ := of_decide_eq_true ht
  exact ⟨hL, c, hc, hlen, hguards, ((content_linearizable hL hc).2.1 0 8).1 hleaves⟩

end Shared

end AtomicHashMap

end Crossync
