/-
The bookkeeping a transaction does on its way, as a few elementary moves.

Translating a parcel, holding what it names and letting it go again is a list of `Move`s (`translateObjects_moves`,
`carry_moves` and the host's `translateRefs_moves`): a node exported, a handle forwarded, a node pinned or unpinned, or
something that shows on neither side of the state. What every move keeps, every such operation keeps. How many holds
each of them leaves on a node is exact (`carry_pins`): as many as the transaction carries, none when it fails.
-/
import Mathlib.Logic.Relation
import Omnidroid.Binder.Frame

namespace Omnidroid.Binder

/-! ## Moves -/

/-- one move of a transaction's bookkeeping -/
inductive Move : State → State → Prop
  | idle {s s' : State} (hs : Still s s') (hc : Calm s s') : Move s s'
  | exportLocal (s : State) (sender : Thread) (target : ProcId) (kind flags : UInt32) (ptr cookie : UInt64)
      (pins : List NodeId) (ht : (s.proc target).dead = false) :
      Move s (s.exportLocal sender target kind flags ptr cookie pins).1
  | forwardHandle (s : State) (sender : Thread) (target : ProcId) (kind handle : UInt32) (pins : List NodeId)
      (ht : (s.proc target).dead = false) : Move s (s.forwardHandle sender target kind handle pins).1
  | pin (s : State) (n : NodeId) (nd : Node) (h : s.nodes.lookup n = some nd) : Move s (s.pin n)
  | unpin (s : State) (n : NodeId) : Move s (s.unpinOne n)
  | release (s : State) (n : NodeId) : Move s (s.releaseIfUnreferenced n)

abbrev Moves : State → State → Prop := Relation.ReflTransGen Move

theorem exportLocal_calm (s : State) (sender : Thread) (target : ProcId) (kind flags : UInt32) (ptr cookie : UInt64)
    (pins : List NodeId) (hf : s.Fresh) : Calm s (s.exportLocal sender target kind flags ptr cookie pins).1 := by
  have h1 := (localNode_calm s sender.1 ptr cookie flags hf).trans (pin_calm _ (s.localNode sender.1 ptr cookie flags).2)
  unfold State.exportLocal
  dsimp only
  split
  · exact h1
  · exact h1.trans (handleFor_calm _ _ _ _)

theorem forwardHandle_calm (s : State) (sender : Thread) (target : ProcId) (kind handle : UInt32) (pins : List NodeId) :
    Calm s (s.forwardHandle sender target kind handle pins).1 := by
  unfold State.forwardHandle
  split
  · exact Calm.refl s
  · dsimp only
    split
    · exact pin_calm s _
    · split
      · exact pin_calm s _
      · exact (pin_calm s _).trans (handleFor_calm _ _ _ _)

theorem Move.calm {s s' : State} (h : Move s s') (hf : s.Fresh) : Calm s s' := by
  cases h with
  | idle _ hc => exact hc
  | exportLocal => exact exportLocal_calm s _ _ _ _ _ _ _ hf
  | forwardHandle => exact forwardHandle_calm s _ _ _ _ _
  | pin n => exact pin_calm s n
  | unpin n => exact unpinOne_calm s n
  | release n => exact releaseIfUnreferenced_calm s n

theorem Moves.calm {s s' : State} (h : Moves s s') (hf : s.Fresh) : Calm s s' := by
  induction h with
  | refl => exact Calm.refl s
  | tail _ hm ih => exact ih.trans (hm.calm (ih.fresh hf))

theorem Moves.idle {s s' : State} (hs : Still s s') (hc : Calm s s') : Moves s s' := .single (.idle hs hc)

theorem unpin_moves (s : State) (l : List NodeId) : Moves s (s.unpin l) := by
  induction l generalizing s with
  | nil => exact .refl
  | cons n l ih => exact .head (.unpin s n) (ih _)

theorem complete_moves (s : State) (th : Thread) : Moves s (s.complete th) :=
  .idle (Still.queue _ _ _ _) (complete_calm s th)

theorem returnError_moves (s : State) (th : Thread) (cmd : UInt32) : Moves s (s.returnError th cmd) :=
  .idle (Still.queue _ _ _ _) (returnError_calm s th cmd)

/-! ## How many hold a node -/

def State.pinCount (s : State) (n : NodeId) : ℕ := (s.pins.lookup n).getD 0

theorem pinCount_pin (s : State) (m n : NodeId) : (s.pin m).pinCount n = s.pinCount n + [m].count n := by
  simp only [State.pinCount, State.pin, Map.lookup_insert_eq, List.count_singleton]
  by_cases h : n = m
  · subst h; simp
  · simp [h, Ne.symm h]

theorem hold_pins (s : State) (node : NodeId) (n : Node) (sender : Option Thread) :
    (s.hold node n sender).pins = s.pins := by
  simp only [State.hold, State.queue_eq]; rfl

theorem handleFor_pins (s : State) (id : ProcId) (node : NodeId) (sender : Option Thread) :
    (s.handleFor id node sender).1.pins = s.pins := by
  unfold State.handleFor
  dsimp only
  repeat' split
  all_goals first | rfl | exact hold_pins _ _ _ _

theorem localNode_pins (s : State) (owner : ProcId) (ptr cookie : UInt64) (flags : UInt32) :
    (s.localNode owner ptr cookie flags).1.pins = s.pins := by
  unfold State.localNode
  split <;> rfl

theorem queue_pins (s : State) (id : ProcId) (tid : Option Tid) (work : Work) : (s.queue id tid work).pins = s.pins :=
  (Still.queue s id tid work).pins

theorem letGo_pins (s : State) (node : NodeId) (n : Node) : (s.letGo node n).pins = s.pins := by
  have h : (s.unlist node n).pins = s.pins := by unfold State.unlist; split <;> rfl
  unfold State.letGo
  dsimp only
  split
  · exact h
  · rw [queue_pins, queue_pins]; exact h

theorem releaseIfUnreferenced_pins (s : State) (node : NodeId) : (s.releaseIfUnreferenced node).pins = s.pins := by
  unfold State.releaseIfUnreferenced
  repeat' split
  all_goals first | rfl | exact letGo_pins _ _ _

theorem dropHandleIfUnheld_pins (s : State) (id : ProcId) (h : UInt32) :
    (s.dropHandleIfUnheld id h).pins = s.pins := by
  unfold State.dropHandleIfUnheld
  repeat' split
  all_goals first | rfl | rw [releaseIfUnreferenced_pins]
  unfold State.logDeath
  split <;> rfl

theorem dropUnheldHandles_pins (s : State) (node : NodeId) : (s.dropUnheldHandles node).pins = s.pins := by
  unfold State.dropUnheldHandles
  dsimp only
  generalize (List.filterMap _ s.procs.entries) = l
  induction l generalizing s with
  | nil => rfl
  | cons e l ih => rw [List.foldl_cons, ih, dropHandleIfUnheld_pins]

theorem unpinned_pins (s : State) (node : NodeId) : (s.unpinned node).pins = s.pins := by
  unfold State.unpinned
  rw [releaseIfUnreferenced_pins]
  split
  · exact dropUnheldHandles_pins s node
  · rfl

theorem pinCount_unpinOne (s : State) (m n : NodeId) : (s.unpinOne m).pinCount n = s.pinCount n - [m].count n := by
  simp only [State.pinCount, List.count_singleton]
  unfold State.unpinOne
  by_cases h : n = m
  · subst h
    split
    · rename_i hm; simp [hm]
    · rename_i c hm
      split
      · rename_i hc
        rw [unpinned_pins]
        simp [hm, hc]
      · simp [hm]
  · have h' : ¬ m = n := fun h' => h h'.symm
    split
    · simp [h']
    · split
      · rw [unpinned_pins]; simp [h, h']
      · simp [h, h']

theorem pinCount_unpin (s : State) (l : List NodeId) (n : NodeId) :
    (s.unpin l).pinCount n = s.pinCount n - l.count n := by
  induction l generalizing s with
  | nil => rfl
  | cons m l ih =>
    have h : s.unpin (m :: l) = (s.unpinOne m).unpin l := rfl
    rw [h, ih, pinCount_unpinOne, Nat.sub_sub, ← List.count_append]
    rfl

/-! ## A parcel's objects -/

theorem exportLocal_pins (s : State) (sender : Thread) (target : ProcId) (kind flags : UInt32) (ptr cookie : UInt64)
    (pins : List NodeId) (n : NodeId) :
    let r := s.exportLocal sender target kind flags ptr cookie pins
    r.1.pinCount n + pins.count n = s.pinCount n + r.2.1.count n := by
  have h : ((s.localNode sender.1 ptr cookie flags).1.pin (s.localNode sender.1 ptr cookie flags).2).pinCount n =
      s.pinCount n + [(s.localNode sender.1 ptr cookie flags).2].count n := by
    rw [pinCount_pin, State.pinCount, localNode_pins]; rfl
  unfold State.exportLocal
  dsimp only
  split
  · rw [h, List.count_append]; omega
  · dsimp only
    rw [State.pinCount, handleFor_pins, List.count_append, ← State.pinCount, h]; omega

theorem forwardHandle_pins (s : State) (sender : Thread) (target : ProcId) (kind handle : UInt32) (pins : List NodeId)
    (n : NodeId) :
    let r := s.forwardHandle sender target kind handle pins
    r.1.pinCount n + pins.count n = s.pinCount n + r.2.1.count n := by
  unfold State.forwardHandle
  split
  · rfl
  · rename_i node _
    have h := pinCount_pin s node n
    dsimp only
    split
    · rw [h, List.count_append]; omega
    · split
      · rw [h, List.count_append]; omega
      · dsimp only
        rw [State.pinCount, handleFor_pins, List.count_append, ← State.pinCount, h]; omega

theorem translateRef_moves (s : State) (sender : Thread) (target : ProcId) (obj : Bytes) (pins : List NodeId)
    (ht : (s.proc target).dead = false) : Moves s (s.translateRef sender target obj pins).1 := by
  unfold State.translateRef
  dsimp only
  split
  · exact .single (.exportLocal s sender target _ _ _ _ pins ht)
  · split
    · exact .single (.forwardHandle s sender target _ _ pins ht)
    · exact .refl

theorem translateRef_pins (s : State) (sender : Thread) (target : ProcId) (obj : Bytes) (pins : List NodeId)
    (n : NodeId) :
    let r := s.translateRef sender target obj pins
    r.1.pinCount n + pins.count n = s.pinCount n + r.2.1.count n := by
  unfold State.translateRef
  dsimp only
  split
  · exact exportLocal_pins s sender target _ _ _ _ pins n
  · split
    · exact forwardHandle_pins s sender target _ _ pins n
    · rfl

/-- the host's objects: their nodes are held, or on an error none -/
theorem translateRefs_moves (s : State) (sender : Thread) (target : ProcId) (data : Bytes) (offs : List ℕ)
    (pins : List NodeId) (hf : s.Fresh) (ht : (s.proc target).dead = false) :
    Moves s (s.translateRefs sender target data offs pins).1 := by
  induction offs generalizing s data pins with
  | nil => exact .refl
  | cons off offs ih =>
    unfold State.translateRefs
    split
    · exact unpin_moves s pins
    · rename_i obj _
      have hm := translateRef_moves s sender target obj pins ht
      have hc := hm.calm hf
      split
      · rename_i he; rw [he] at hm
        exact hm.trans (unpin_moves _ _)
      · rename_i he; rw [he] at hm hc
        exact hm.trans (ih _ _ _ (hc.fresh hf) (by rw [hc.dead, ht]))
      · rename_i he; rw [he] at hm hc
        exact hm.trans (ih _ _ _ (hc.fresh hf) (by rw [hc.dead, ht]))

/-- the nodes a translation leaves held: none when it failed -/
def holdsOf {α : Type} (f : α → List NodeId) : Except Errno α → List NodeId
  | .error _ => []
  | .ok a => f a

theorem translateRefs_pins (s : State) (sender : Thread) (target : ProcId) (data : Bytes) (offs : List ℕ)
    (pins : List NodeId) (n : NodeId) (hn : pins.count n ≤ s.pinCount n) :
    let r := s.translateRefs sender target data offs pins
    r.1.pinCount n + pins.count n = s.pinCount n + (holdsOf (·.2) r.2).count n := by
  induction offs generalizing s data pins with
  | nil => rfl
  | cons off offs ih =>
    unfold State.translateRefs
    cases hg : Bytes.get? data off 24 with
    | none => simp only [pinCount_unpin, holdsOf, List.count_nil]; omega
    | some obj =>
      have hp := translateRef_pins s sender target obj pins n
      rcases hr : s.translateRef sender target obj pins with ⟨s₁, pins₁, e | r⟩
      · simp only [hr, pinCount_unpin, holdsOf, List.count_nil] at hp ⊢
        omega
      · simp only [hr] at hp ⊢
        cases r with
        | none =>
          have := ih s₁ data pins₁ (by omega)
          simp only at this ⊢
          omega
        | some r =>
          have := ih s₁ (rewriteRef data off r) pins₁ (by omega)
          simp only at this ⊢
          omega

theorem translateObject_moves (env : SendEnv) (sender : Thread) (target : ProcId) (index off : ℕ) (x : Translation)
    (ht : (x.st.proc target).dead = false) : Moves x.st (translateObject env sender target index off x).1.st := by
  unfold translateObject
  split
  · exact .refl
  · split
    · split
      · exact .refl
      · rename_i obj _
        have hm := translateRef_moves x.st sender target obj x.pins ht
        unfold translateFlat
        split <;> (rename_i he; rw [he] at hm; exact hm)
    · split <;> exact .refl

theorem translateObject_pins (env : SendEnv) (sender : Thread) (target : ProcId) (index off : ℕ) (x : Translation)
    (n : NodeId) :
    let x' := (translateObject env sender target index off x).1
    x'.st.pinCount n + x.pins.count n = x.st.pinCount n + x'.pins.count n := by
  unfold translateObject
  split
  · rfl
  · split
    · split
      · rfl
      · rename_i obj _
        have hp := translateRef_pins x.st sender target obj x.pins n
        unfold translateFlat
        split <;> (rename_i he; rw [he] at hp; exact hp)
    · split <;> rfl

theorem translateObjects_moves (env : SendEnv) (sender : Thread) (target : ProcId) (index : ℕ) (offs : List UInt64)
    (x : Translation) (hf : x.st.Fresh) (ht : (x.st.proc target).dead = false) :
    Moves x.st (translateObjects env sender target index offs x).1.st := by
  induction offs generalizing index x with
  | nil => exact .refl
  | cons off offs ih =>
    have hm := translateObject_moves env sender target index off.toNat x ht
    have hc := hm.calm hf
    unfold translateObjects
    split
    · rename_i he; rw [he] at hm; exact hm
    · rename_i he; rw [he] at hm hc
      exact hm.trans (ih _ _ (hc.fresh hf) (by rw [hc.dead, ht]))

theorem translateObjects_pins (env : SendEnv) (sender : Thread) (target : ProcId) (index : ℕ) (offs : List UInt64)
    (x : Translation) (n : NodeId) :
    let x' := (translateObjects env sender target index offs x).1
    x'.st.pinCount n + x.pins.count n = x.st.pinCount n + x'.pins.count n := by
  induction offs generalizing index x with
  | nil => rfl
  | cons off offs ih =>
    have hp := translateObject_pins env sender target index off.toNat x n
    unfold translateObjects
    rcases hx : translateObject env sender target index off.toNat x with ⟨x₁, e | u⟩
    · rw [hx] at hp; exact hp
    · rw [hx] at hp
      have := ih (index + 1) x₁
      simp only at hp this ⊢
      omega

/-! ## A parcel on its way -/

theorem carry_moves (s : State) (env : SendEnv) (th : Thread) (target : ProcId) (node : Option NodeId) (data : Bytes)
    (offsets : List UInt64) (hf : s.Fresh) (ht : (s.proc target).dead = false)
    (hn : ∀ n, node = some n → ∃ nd, s.nodes.lookup n = some nd) :
    Moves s (s.carry env th target node data offsets).1 := by
  have hm := translateObjects_moves env th target 0 offsets { st := s, data := data } hf ht
  unfold State.carry
  split
  · rename_i he
    rw [he] at hm
    exact hm.trans (unpin_moves _ _)
  · rename_i x he
    rw [he] at hm
    have hp : ∀ n, node = some n → Moves s (x.st.pin n) := fun n h => by
      obtain ⟨nd, hnd⟩ := hn n h
      obtain ⟨nd', hnd', -⟩ := (hm.calm hf).owner n nd hnd
      exact hm.tail (.pin _ n nd' hnd')
    cases node with
    | none =>
      dsimp only
      split
      · exact hm.trans (unpin_moves _ _)
      · exact hm
    | some n =>
      dsimp only
      split
      · exact (hp n rfl).trans (unpin_moves _ _)
      · exact hp n rfl

/-- a transaction on its way holds each node as often as it says; one that failed, or went to the host, holds none -/
theorem carry_pins (s : State) (env : SendEnv) (th : Thread) (target : ProcId) (node : Option NodeId) (data : Bytes)
    (offsets : List UInt64) (n : NodeId) :
    let r := s.carry env th target node data offsets
    r.1.pinCount n = s.pinCount n + (holdsOf (·.2.2) r.2).count n := by
  have hp := translateObjects_pins env th target 0 offsets { st := s, data := data } n
  unfold State.carry
  rcases hx : translateObjects env th target 0 offsets { st := s, data := data } with ⟨x, e | u⟩
  · simp only [hx, List.count_nil, Nat.add_zero, pinCount_unpin, holdsOf] at hp ⊢
    omega
  · simp only [hx, List.count_nil, Nat.add_zero] at hp ⊢
    cases node with
    | none =>
      dsimp only
      split
      · simp only [pinCount_unpin, holdsOf, List.count_nil]; omega
      · exact hp
    | some m =>
      have h2 := pinCount_pin x.st m n
      dsimp only
      split
      · simp only [pinCount_unpin, h2, List.count_append, holdsOf, List.count_nil]; omega
      · simp only [h2, List.count_append, holdsOf]; omega

/-- the host's handles hold what it is sent for as long as it runs: no transaction to it does -/
theorem carry_host (s : State) (env : SendEnv) (th : Thread) (node : Option NodeId) (data : Bytes)
    (offsets : List UInt64) : holdsOf (·.2.2) (s.carry env th .host node data offsets).2 = [] := by
  unfold State.carry
  rcases translateObjects env th .host 0 offsets { st := s, data := data } with ⟨x, e | u⟩ <;> rfl

end Omnidroid.Binder
