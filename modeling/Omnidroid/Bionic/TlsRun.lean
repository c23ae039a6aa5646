/-
Runs of the thread-local storage of `Bionic.Tls`, and what their logs say.

- `Held`: how the registries and the blocks hold what the log says. One lemma for each kind of event.
- `Swept`: where each sweep is, and what it has called.
- `Inv`: both, and a log that is right. `step_inv` keeps it.
- `tls_storage`: every run's log is right, and a sweep returns the calls it made, in order.
- `taken_spec`: each stored value is passed to a destructor at most once.
-/
import Omnidroid.Bionic.Tls

namespace Omnidroid.Bionic.Tls

open TlsRegistry World

/-! ## The storage and the log -/

/-- the value of a thread under a live key, as the blocks have it -/
def World.held (w : World) (r t k : ℕ) : ℕ :=
  ((w.registries r).live k).elim 0 fun slot => (w.pair r t k).read slot.generation

structure Held (w : World) (log : List Event) : Prop where
  blocks : Blocks w
  table : ∀ r, Table (w.registries r)
  bound : ∀ r t k, (w.pair r t k).generation ≤ (w.registries r).generation
  keys : ∀ r k, destructor r k log = ((w.registries r).live k).map KeySlot.dtor
  values : ∀ r t k, lookup r t k log = w.held r t k
  pending : ∀ r t, pending r t log = (((w.registries r).threadAtexit t).getD []).reverse.map fun e => (e.1, e.2.1)

section Held

variable {w w' : World} {log : List Event} {e : Event} {r t k v b d o : ℕ} {slot : KeySlot} {r' : TlsRegistry}

theorem Held.start : Held {} [] where
  blocks.owned _ _ _ h := nomatch h
  blocks.owner _ _ _ _ _ h := nomatch h
  blocks.cached host cache h c hc := by
    cases h
    cases hc
  table r := ⟨Nat.zero_le _, fun _ _ => rfl, fun _ h => (nomatch h), fun _ h => (nomatch h)⟩
  bound _ _ _ := Nat.zero_le _
  keys _ _ := rfl
  values _ _ _ := rfl
  pending _ _ := rfl

theorem World.Serves.live (h : Serves w w') (r k : ℕ) : (w'.registries r).live k = (w.registries r).live k := by
  rw [h.registries r]
  rfl

theorem Held.serves (h : Held w log) (hw : Serves w w') : Held w' log where
  blocks := hw.blocks
  table r := by
    obtain ⟨hlen, hmirror, hfreed, hbound⟩ := h.table r
    rw [hw.registries r]
    exact ⟨hlen, hmirror, hfreed, hbound⟩
  bound r t k := by
    rw [hw.pairs, hw.registries r]
    exact h.bound r t k
  keys r k := by
    rw [hw.live]
    exact h.keys r k
  values r t k := by
    rw [h.values, held, held, hw.live, hw.pairs]
  pending r t := by
    rw [h.pending, hw.registries r]

/-- an event that changes nothing anyone holds -/
theorem Held.notice (h : Held w log) (hl : ∀ r t k, lookup r t k (e :: log) = lookup r t k log)
    (hd : ∀ r k, destructor r k (e :: log) = destructor r k log)
    (hp : ∀ r t, Tls.pending r t (e :: log) = Tls.pending r t log) : Held w (e :: log) :=
  ⟨h.blocks, h.table, h.bound, fun r k => (hd r k).trans (h.keys r k), fun r t k => (hl r t k).trans (h.values r t k),
    fun r t => (hp r t).trans (h.pending r t)⟩

/-- a registry with the same threads -/
theorem blocks_setRegistry (h : Blocks w) (hr : r'.threads = (w.registries r).threads) : Blocks (w.setRegistry r r') := by
  have hthreads : ∀ r₁, ((w.setRegistry r r').registries r₁).threads = (w.registries r₁).threads := by
    intro r₁
    rw [registries_setRegistry]
    split
    · next heq => rw [hr, heq]
    · rfl
  refine ⟨fun r₁ t b hb => ?_, fun r₁ t₁ r₂ t₂ b h₁ h₂ => ?_, fun host cache hc c hmem => ?_⟩
  · rw [hthreads] at hb
    exact h.owned r₁ t b hb
  · rw [hthreads] at h₁ h₂
    exact h.owner r₁ t₁ r₂ t₂ b h₁ h₂
  · rw [hthreads]
    exact h.cached host cache hc c hmem

theorem pair_setRegistry (hr : r'.threads = (w.registries r).threads) (r₁ t k : ℕ) :
    (w.setRegistry r r').pair r₁ t k = w.pair r₁ t k := by
  unfold pair
  rw [registries_setRegistry]
  by_cases heq : r₁ = r
  · rw [if_pos heq, hr, heq]
    rfl
  · rw [if_neg heq]
    rfl

/-- a key comes into a slot or goes out of one: what any thread held there is none of the new key's -/
theorem Held.rekey {log' : List Event} (h : Held w log) {dtor : Option ℕ} (hthreads : r'.threads = (w.registries r).threads)
    (hatexit : r'.threadAtexit = (w.registries r).threadAtexit) (htable : Table r')
    (hgen : (w.registries r).generation ≤ r'.generation) {new : Option KeySlot}
    (hlive : ∀ i, r'.live i = if i = k then new else (w.registries r).live i)
    (hnew : ∀ slot ∈ new, (w.registries r).generation < slot.generation) (hdtor : new.map KeySlot.dtor = dtor)
    (hd : ∀ r₁ k₁, destructor r₁ k₁ log' = if r = r₁ ∧ k = k₁ then dtor else destructor r₁ k₁ log)
    (hl : ∀ r₁ t k₁, lookup r₁ t k₁ log' = if r = r₁ ∧ k = k₁ then 0 else lookup r₁ t k₁ log)
    (hp : ∀ r t, Tls.pending r t log' = Tls.pending r t log) : Held (w.setRegistry r r') log' where
  blocks := blocks_setRegistry h.blocks hthreads
  table r₁ := by
    rw [registries_setRegistry]
    split
    · exact htable
    · exact h.table r₁
  bound r₁ t k₁ := by
    rw [pair_setRegistry hthreads, registries_setRegistry]
    split
    · next heq =>
      rw [heq]
      exact (h.bound r t k₁).trans hgen
    · exact h.bound r₁ t k₁
  keys r₁ k₁ := by
    rw [hd, registries_setRegistry]
    by_cases hr : r₁ = r
    · rw [if_pos hr, hlive, hr]
      by_cases hk : k₁ = k
      · rw [if_pos ⟨rfl, hk.symm⟩, if_pos hk, hdtor]
      · rw [if_neg fun h => hk h.2.symm, if_neg hk, h.keys]
    · rw [if_neg hr, if_neg fun h => hr h.1.symm, h.keys]
  values r₁ t k₁ := by
    rw [hl, held, registries_setRegistry, pair_setRegistry hthreads]
    by_cases hr : r₁ = r
    · rw [if_pos hr, hlive, hr]
      by_cases hk : k₁ = k
      · rw [if_pos ⟨rfl, hk.symm⟩, if_pos hk, hk]
        cases hslot : new with
        | none => rfl
        | some slot =>
          have hbound := h.bound r t k
          have hlt := hnew slot hslot
          exact (if_neg (by omega)).symm
      · rw [if_neg fun h => hk h.2.symm, if_neg hk, h.values, held]
    · rw [if_neg hr, if_neg fun h => hr h.1.symm, h.values, held]
  pending r₁ t := by
    rw [hp, h.pending, registries_setRegistry]
    split
    · next heq => rw [hatexit, heq]
    · rfl

theorem Held.created {key dtor : ℕ} (h : Held w log) (hc : Created (w.registries r) r' key dtor) :
    Held (w.setRegistry r r') (.created r key dtor :: log) :=
  h.rekey hc.threads hc.threadAtexit hc.table (by rw [hc.generation]; exact Nat.le_succ _) hc.live
    (fun slot hslot => by cases hslot; exact Nat.lt_succ_self _) rfl (fun _ _ => rfl) (fun _ _ _ => rfl) fun _ _ => rfl

theorem Held.deleted {key : ℕ} (h : Held w log) :
    Held (w.setRegistry r ((w.registries r).keyDelete key).2) (.deleted r key :: log) := by
  obtain ⟨htable, -, hlive, hgen, hthreads, hatexit⟩ := (h.table r).keyDelete key
  exact h.rekey hthreads hatexit htable hgen.ge hlive (fun slot hslot => nomatch hslot) rfl (fun _ _ => rfl)
    (fun _ _ _ => rfl) fun _ _ => rfl

/-- a key that there is not is freed again -/
theorem Held.notDeleted {key : ℕ} (h : Held w log) (hdead : (w.registries r).live key = none) :
    Held (w.setRegistry r ((w.registries r).keyDelete key).2) log := by
  obtain ⟨htable, -, hlive, hgen, hthreads, hatexit⟩ := (h.table r).keyDelete key
  refine h.rekey hthreads hatexit htable hgen.ge hlive (fun slot hslot => nomatch hslot) rfl (fun r₁ k₁ => ?_)
    (fun r₁ t k₁ => ?_) fun _ _ => rfl
  · split
    · next heq =>
      rw [← heq.1, ← heq.2, h.keys, hdead, Option.map_none]
    · rfl
  · split
    · next heq =>
      rw [← heq.1, ← heq.2, h.values, held, hdead]
      rfl
    · rfl

/-- a thread writes under a live key -/
theorem Held.write (h : Held w log) (hb : (w.registries r).threads t = some b) (hlive : (w.registries r).live k = some slot)
    (hd : ∀ r₁ k₁, destructor r₁ k₁ (e :: log) = destructor r₁ k₁ log)
    (hl : ∀ r₁ t₁ k₁, lookup r₁ t₁ k₁ (e :: log) = if r = r₁ ∧ t = t₁ ∧ k = k₁ then v else lookup r₁ t₁ k₁ log)
    (hp : ∀ r t, Tls.pending r t (e :: log) = Tls.pending r t log) :
    Held (w.write b k slot.generation v) (e :: log) where
  blocks := write_blocks h.blocks
  table := h.table
  bound r₁ t₁ k₁ := by
    rw [pair_write h.blocks hb]
    split
    · next heq =>
      rw [heq.1]
      exact (h.table r).live_bound hlive
    · exact h.bound r₁ t₁ k₁
  keys r₁ k₁ := (hd r₁ k₁).trans (h.keys r₁ k₁)
  values r₁ t₁ k₁ := by
    rw [hl, held, pair_write h.blocks hb]
    by_cases heq : r₁ = r ∧ t₁ = t ∧ k₁ = k
    · obtain ⟨rfl, rfl, rfl⟩ := heq
      rw [if_pos ⟨rfl, rfl, rfl⟩, if_pos ⟨rfl, rfl, rfl⟩]
      show v = ((w.registries r₁).live k₁).elim 0 _
      rw [hlive]
      exact (if_pos rfl).symm
    · rw [if_neg heq, if_neg fun h => heq ⟨h.1.symm, h.2.1.symm, h.2.2.symm⟩, h.values]
      rfl
  pending r₁ t₁ := (hp r₁ t₁).trans (h.pending r₁ t₁)

theorem Held.retired {host : ℕ} (h : Held w log) : Held (w.retire host r t) (.retired r t :: log) := by
  obtain ⟨hblocks, hregs, hpairs⟩ := @retire_spec w host r t h.blocks
  have hlive : ∀ r₁ k₁, ((w.retire host r t).registries r₁).live k₁ = (w.registries r₁).live k₁ := by
    intro r₁ k₁
    rw [hregs]
    rfl
  refine ⟨hblocks, fun r₁ => ?_, fun r₁ t₁ k₁ => ?_, fun r₁ k₁ => ?_, fun r₁ t₁ k₁ => ?_, fun r₁ t₁ => ?_⟩
  · obtain ⟨hlen, hmirror, hfreed, hbound⟩ := h.table r₁
    rw [hregs]
    exact ⟨hlen, hmirror, hfreed, hbound⟩
  · rw [hpairs, hregs]
    split
    · exact Nat.zero_le _
    · exact h.bound r₁ t₁ k₁
  · rw [hlive]
    exact h.keys r₁ k₁
  · rw [lookup, held, hlive, hpairs]
    by_cases heq : r₁ = r ∧ t₁ = t
    · rw [if_pos heq, if_pos ⟨heq.1.symm, heq.2.symm⟩]
      cases hslot : (w.registries r₁).live k₁ with
      | none => rfl
      | some slot => exact (if_neg (live_eq_some.1 hslot).2.symm).symm
    · rw [if_neg heq, if_neg fun h => heq ⟨h.1.symm, h.2.symm⟩, h.values, held]
  · refine (h.pending r₁ t₁).trans ?_
    rw [hregs]

/-- the handlers of a thread change -/
theorem Held.handlers (h : Held w log) {list : Option (List (ℕ × ℕ × ℕ))} {stamp : ℕ}
    (hr' : r' = { w.registries r with
      atexitStamp := stamp, threadAtexit := Function.update (w.registries r).threadAtexit t list })
    (hd : ∀ r₁ k₁, destructor r₁ k₁ (e :: log) = destructor r₁ k₁ log)
    (hl : ∀ r₁ t₁ k₁, lookup r₁ t₁ k₁ (e :: log) = lookup r₁ t₁ k₁ log)
    (hp : ∀ r₁ t₁, Tls.pending r₁ t₁ (e :: log) =
      if r = r₁ ∧ t = t₁ then (list.getD []).reverse.map fun e => (e.1, e.2.1) else Tls.pending r₁ t₁ log) :
    Held (w.setRegistry r r') (e :: log) := by
  have hthreads : r'.threads = (w.registries r).threads := by rw [hr']
  have hlive : ∀ r₁ k₁, ((w.setRegistry r r').registries r₁).live k₁ = (w.registries r₁).live k₁ := by
    intro r₁ k₁
    rw [registries_setRegistry]
    split
    · next heq =>
      rw [heq, hr']
      rfl
    · rfl
  refine ⟨blocks_setRegistry h.blocks hthreads, fun r₁ => ?_, fun r₁ t₁ k₁ => ?_, fun r₁ k₁ => ?_, fun r₁ t₁ k₁ => ?_,
    fun r₁ t₁ => ?_⟩
  · rw [registries_setRegistry]
    split
    · obtain ⟨hlen, hmirror, hfreed, hbound⟩ := h.table r
      rw [hr']
      exact ⟨hlen, hmirror, hfreed, hbound⟩
    · exact h.table r₁
  · rw [pair_setRegistry hthreads, registries_setRegistry]
    split
    · next heq =>
      rw [heq, hr']
      exact h.bound r t₁ k₁
    · exact h.bound r₁ t₁ k₁
  · rw [hd, h.keys, hlive]
  · rw [hl, h.values, held, held, hlive, pair_setRegistry hthreads]
  · rw [hp, registries_setRegistry]
    by_cases hr : r₁ = r
    · rw [if_pos hr, hr']
      dsimp only
      rw [Function.update_apply]
      by_cases ht : t₁ = t
      · rw [if_pos ⟨hr.symm, ht.symm⟩, if_pos ht]
      · rw [if_neg fun h => ht h.2.symm, if_neg ht, h.pending, hr]
    · rw [if_neg hr, if_neg fun h => hr h.1.symm, h.pending]

theorem Held.registered (h : Held w log) :
    Held (w.setRegistry r ((w.registries r).atexit t d o)) (.registered r t d o :: log) := by
  refine h.handlers rfl (fun _ _ => rfl) (fun _ _ _ => rfl) fun r₁ t₁ => ?_
  show (if r = r₁ ∧ t = t₁ then (d, o) :: Tls.pending r₁ t₁ log else Tls.pending r₁ t₁ log) = _
  split
  · next heq =>
    rw [← heq.1, ← heq.2, h.pending]
    simp
  · rfl

end Held

/-! ## A step of a sweep -/

/-- what a step of sweep `i` does, by where the sweep is -/
inductive SweepMove (log : List Event) (i : ℕ) (f : Sweep) : World → Sweep → Option Event → Prop
  | drained {w} (hpc : f.pc = .atexit) (hp : pending f.registry f.thread log = [])
      (hw : Held w (.drained i f.registry f.thread :: log)) :
      SweepMove log i f w (f.goTo (.round 0 0 0)) (some (.drained i f.registry f.thread))
  | handled {w d o} (hpc : f.pc = .atexit) (hp : (pending f.registry f.thread log).head? = some (d, o))
      (hw : Held w (.handled i f.registry f.thread d o :: log)) :
      SweepMove log i f w (f.call .atexit d o) (some (.handled i f.registry f.thread d o))
  | walks {w n idx called pc} (hpc : f.pc = .round n idx called)
      (hto : pc = .leftover ∨ n ≠ PTHREAD_DESTRUCTOR_ITERATIONS ∧ (pc = .round n (idx + 1) called ∨ pc = .round (n + 1) 0 0))
      (hw : Held w log) : SweepMove log i f w (f.goTo pc) none
  | passed {w n idx called d v} (hpc : f.pc = .round n idx called) (hn : n ≠ PTHREAD_DESTRUCTOR_ITERATIONS)
      (hd : destructor f.registry idx log = some d) (hv : v = lookup f.registry f.thread idx log) (hne : v ≠ 0)
      (hw : Held w (.passed i f.registry f.thread n idx d v :: log)) :
      SweepMove log i f w (f.call (.round n (idx + 1) (called + 1)) d v) (some (.passed i f.registry f.thread n idx d v))
  | leaves {w} (hpc : f.pc = .leftover) (hw : Held w log) : SweepMove log i f w (f.goTo .done) none
  | retires {w} (hpc : f.pc = .leftover) (hw : Held w (.retired f.registry f.thread :: log)) :
      SweepMove log i f w (f.goTo .done) (some (.retired f.registry f.thread))
  | rests {w} (hpc : f.pc = .done) (hw : Held w log) : SweepMove log i f w f none

section Sweeps

variable {w w' : World} {log : List Event} {i n idx called : ℕ} {f : Sweep}

/-- phase 1 -/
theorem sweepStep_atexit (h : Held w log) (hpc : f.pc = .atexit) :
    SweepMove log i f (w.sweepStep i f).1 (w.sweepStep i f).2.1 (w.sweepStep i f).2.2 := by
  unfold sweepStep
  rw [hpc]
  dsimp only
  have hpending := h.pending f.registry f.thread
  cases hlast : (((w.registries f.registry).threadAtexit f.thread).getD []).getLast? with
  | none =>
    rw [List.getLast?_eq_none_iff.1 hlast] at hpending
    refine .drained hpc hpending (h.handlers rfl (fun _ _ => rfl) (fun _ _ _ => rfl) fun r₁ t₁ => ?_)
    split
    · next heq =>
      rw [← heq.1, ← heq.2]
      exact hpending
    · rfl
  | some entry =>
    obtain ⟨d, o, stamp⟩ := entry
    obtain ⟨rest, hrest⟩ := List.getLast?_eq_some_iff.1 hlast
    rw [hrest] at hpending ⊢
    refine .handled hpc (by rw [hpending]; simp) (h.handlers rfl (fun _ _ => rfl) (fun _ _ _ => rfl) fun r₁ t₁ => ?_)
    show (if f.registry = r₁ ∧ f.thread = t₁ then (Tls.pending r₁ t₁ log).tail else Tls.pending r₁ t₁ log) = _
    split
    · next heq =>
      rw [← heq.1, ← heq.2, hpending]
      simp
    · rfl

/-- phase 2 -/
theorem sweepStep_round (h : Held w log) (hpc : f.pc = .round n idx called) :
    SweepMove log i f (w.sweepStep i f).1 (w.sweepStep i f).2.1 (w.sweepStep i f).2.2 := by
  unfold sweepStep
  rw [hpc]
  dsimp only
  by_cases hn : n = PTHREAD_DESTRUCTOR_ITERATIONS
  · rw [if_pos hn]
    exact .walks hpc (.inl rfl) h
  rw [if_neg hn]
  cases hslot : (w.registries f.registry).keys[idx]? with
  | none =>
    refine .walks hpc ?_ h
    split
    · exact .inl rfl
    · exact .inr ⟨hn, .inr rfl⟩
  | some slot =>
    dsimp only
    by_cases hskip : slot.generation = 0 ∨ (if slot.dtor = u64Max then 0 else slot.dtor) = 0
    · rw [if_pos hskip]
      exact .walks hpc (.inr ⟨hn, .inl rfl⟩) h
    rw [if_neg hskip]
    obtain ⟨hserves, hthread⟩ := @withValues_spec w f.host f.registry f.thread h.blocks
    have hw := h.serves hserves
    have hlive : ((w.withValues f.host f.registry f.thread).2.registries f.registry).live idx = some slot := by
      rw [hserves.live]
      exact live_eq_some.2 ⟨hslot, fun h => hskip (.inl h)⟩
    have hdtor : (if slot.dtor = u64Max then 0 else slot.dtor) = slot.dtor := by
      split
      · next hmax =>
        rw [if_pos hmax] at hskip
        exact absurd (.inr rfl) hskip
      · rfl
    have hread : (((w.withValues f.host f.registry f.thread).2.blocks (w.withValues f.host f.registry f.thread).1).pairs
        idx).read slot.generation = lookup f.registry f.thread idx log := by
      rw [hw.values, held, hlive, pair, hthread]
      rfl
    rw [hdtor]
    by_cases hv : (((w.withValues f.host f.registry f.thread).2.blocks
        (w.withValues f.host f.registry f.thread).1).pairs idx).read slot.generation ≠ 0
    · rw [if_pos hv]
      refine .passed hpc hn (by rw [hw.keys, hlive]; rfl) hread hv ?_
      exact hw.write hthread hlive (fun _ _ => rfl) (fun _ _ _ => rfl) fun _ _ => rfl
    · rw [if_neg hv]
      exact .walks hpc (.inr ⟨hn, .inl rfl⟩) hw

theorem sweepStep_move (h : Held w log) :
    SweepMove log i f (w.sweepStep i f).1 (w.sweepStep i f).2.1 (w.sweepStep i f).2.2 := by
  cases hpc : f.pc with
  | atexit => exact sweepStep_atexit h hpc
  | round n idx called => exact sweepStep_round h hpc
  | leftover =>
    have hw := h.serves (@withValues_spec w f.host f.registry f.thread h.blocks).1
    unfold sweepStep
    rw [hpc]
    dsimp only
    split
    · exact .leaves hpc hw
    · exact .retires hpc hw.retired
  | done =>
    unfold sweepStep
    rw [hpc]
    exact .rests hpc h

end Sweeps

/-! ## Every run -/

def Event.sweep? : Event → Option ℕ
  | .handled s .. | .drained s .. | .passed s .. => some s
  | _ => none

/-- sweep `i` has not come to the keys -/
structure Early (i : ℕ) (log : List Event) : Prop where
  drained : ∀ r t, Event.drained i r t ∉ log
  passed : ∀ r t n k d v, Event.passed i r t n k d v ∉ log

/-- where sweep `i` is, by what it has called -/
structure SweepAt (i : ℕ) (f : Sweep) (log : List Event) : Prop where
  work : f.work = (calls i log).reverse
  atexit : f.pc = .atexit → Early i log
  round : ∀ n idx called, f.pc = .round n idx called → n ≤ PTHREAD_DESTRUCTOR_ITERATIONS ∧
    Event.drained i f.registry f.thread ∈ log ∧ ∀ r t n' k d v, Event.passed i r t n' k d v ∈ log →
      r = f.registry ∧ t = f.thread ∧ (n' < n ∨ n' = n ∧ k < idx)

structure Inv (s : State) : Prop where
  held : Held s.world s.log
  sweeps : ∀ i f, s.sweeps[i]? = some f → SweepAt i f s.log
  fresh : ∀ i, s.sweeps.length ≤ i → Early i s.log ∧ calls i s.log = []
  right : AllRight s.log

section Runs

variable {s : State} {w : World} {log : List Event} {e : Event} {i : ℕ} {f : Sweep}

theorem calls_other (h : e.sweep? ≠ some i) : calls i (e :: log) = calls i log := by
  cases e with
  | handled s r t d o => exact if_neg fun heq => h (congrArg some heq)
  | passed s r t n k d v => exact if_neg fun heq => h (congrArg some heq)
  | _ => rfl

theorem mem_other {e' : Event} (h : e.sweep? ≠ some i) (h' : e'.sweep? = some i) : e' ∈ e :: log ↔ e' ∈ log := by
  rw [List.mem_cons, or_iff_right]
  rintro rfl
  exact h h'

theorem Early.other (h : Early i log) (he : e.sweep? ≠ some i) : Early i (e :: log) :=
  ⟨fun r t hm => h.drained r t ((mem_other he rfl).1 hm), fun r t n k d v hm => h.passed r t n k d v ((mem_other he rfl).1 hm)⟩

theorem SweepAt.other (h : SweepAt i f log) (he : e.sweep? ≠ some i) : SweepAt i f (e :: log) where
  work := by rw [calls_other he, h.work]
  atexit hpc := (h.atexit hpc).other he
  round n idx called hpc := by
    obtain ⟨hn, hdrained, hpassed⟩ := h.round n idx called hpc
    exact ⟨hn, List.mem_cons_of_mem _ hdrained, fun r t n' k d v hm => hpassed r t n' k d v ((mem_other he rfl).1 hm)⟩

/-- an event of no sweep -/
theorem Inv.add (h : Inv s) (hw : Held w (e :: s.log)) (he : e.sweep? = none) (hright : Right s.log e) :
    Inv { s with world := w, log := e :: s.log } :=
  have hne : ∀ i, e.sweep? ≠ some i := fun _ hi => nomatch he.symm.trans hi
  ⟨hw, fun i f hf => (h.sweeps i f hf).other (hne i),
    fun i hi => ⟨(h.fresh i hi).1.other (hne i), (calls_other (hne i)).trans (h.fresh i hi).2⟩, hright, h.right⟩

theorem Inv.move (h : Inv s) (hw : Held w s.log) : Inv { s with world := w } := ⟨hw, h.sweeps, h.fresh, h.right⟩

theorem keyCreate_inv (h : Inv s) (r d : ℕ) : Inv (s.step (.keyCreate r d)) := by
  unfold State.step
  dsimp only
  cases hcreate : (s.world.registries r).keyCreate d with
  | none => exact h
  | some answer =>
    obtain ⟨answer, r'⟩ := answer
    have hkey := (h.held.table r).keyCreate hcreate
    cases answer with
    | ok key =>
      refine h.add (h.held.created hkey) rfl ⟨hkey.key_lt, ?_⟩
      rw [h.held.keys, hkey.free]
      rfl
    | error code =>
      obtain ⟨-, rfl, hfull⟩ := hkey
      refine h.add ?_ rfl fun k hk => ?_
      · have hsame : s.world.setRegistry r (s.world.registries r) = s.world := by
          unfold setRegistry
          rw [Function.update_eq_self]
        rw [hsame]
        exact h.held.notice (fun _ _ _ => rfl) (fun _ _ => rfl) fun _ _ => rfl
      · rw [h.held.keys, Option.isSome_map]
        exact hfull k hk

theorem keyDelete_inv (h : Inv s) (r key : ℕ) : Inv (s.step (.keyDelete r key)) := by
  have hcode := ((h.held.table r).keyDelete key).2.1
  unfold State.step
  dsimp only
  by_cases hzero : ((s.world.registries r).keyDelete key).1 = 0
  · rw [if_pos hzero]
    refine h.add h.held.deleted rfl ?_
    show (destructor r key s.log).isSome
    rw [h.held.keys, Option.isSome_map]
    exact hcode.1 hzero
  · rw [if_neg hzero]
    have hdead : (s.world.registries r).live key = none := by
      rw [← Option.not_isSome_iff_eq_none]
      exact fun hl => hzero (hcode.2 hl)
    exact h.move (h.held.notDeleted hdead)

theorem setspecific_inv (h : Inv s) (host r t key v : ℕ) : Inv (s.step (.setspecific host r t key v)) := by
  have hgen := (h.held.table r).liveGeneration key
  unfold State.step World.setspecific
  dsimp only
  cases hlive : (s.world.registries r).live key with
  | none =>
    rw [hgen, hlive]
    exact h
  | some slot =>
    rw [hgen, hlive]
    obtain ⟨hserves, hthread⟩ := @withValues_spec s.world host r t h.held.blocks
    refine h.add ((h.held.serves hserves).write hthread ?_ (fun _ _ => rfl) (fun _ _ _ => rfl) fun _ _ => rfl) rfl ?_
    · rw [hserves.live, hlive]
    · show (destructor r key s.log).isSome
      rw [h.held.keys, hlive]
      rfl

theorem getspecific_inv (h : Inv s) (host r t key : ℕ) : Inv (s.step (.getspecific host r t key)) := by
  have hgen := (h.held.table r).liveGeneration key
  have hvalue := h.held.values r t key
  unfold State.step World.getspecific
  dsimp only
  rw [held] at hvalue
  cases hlive : (s.world.registries r).live key with
  | none =>
    rw [hlive] at hvalue
    rw [hgen, hlive]
    exact h.add (h.held.notice (fun _ _ _ => rfl) (fun _ _ => rfl) fun _ _ => rfl) rfl hvalue.symm
  | some slot =>
    rw [hlive] at hvalue
    rw [hgen, hlive]
    obtain ⟨hserves, hthread⟩ := @withValues_spec s.world host r t h.held.blocks
    refine h.add ((h.held.serves hserves).notice (fun _ _ _ => rfl) (fun _ _ => rfl) fun _ _ => rfl) rfl ?_
    show _ = lookup r t key s.log
    rw [hvalue]
    show _ = (s.world.pair r t key).read slot.generation
    rw [← hserves.pairs, pair, hthread]
    rfl

/-- sweep `i` goes on, and the others stay where they are -/
theorem Inv.sweep {f' : Sweep} {e : Option Event} (h : Inv s) (hf : s.sweeps[i]? = some f)
    (hw : Held w (e.toList ++ s.log)) (he : ∀ e' ∈ e, ∀ j, e'.sweep? = some j → j = i) (hright : ∀ e' ∈ e, Right s.log e')
    (hat : SweepAt i f' (e.toList ++ s.log)) :
    Inv { world := w, sweeps := s.sweeps.set i f', log := e.toList ++ s.log } := by
  obtain ⟨hlt, -⟩ := List.getElem?_eq_some_iff.1 hf
  have hother : ∀ j, j ≠ i → (∀ f, SweepAt j f s.log → SweepAt j f (e.toList ++ s.log)) ∧
      (Early j s.log ∧ calls j s.log = [] → Early j (e.toList ++ s.log) ∧ calls j (e.toList ++ s.log) = []) := by
    intro j hj
    cases e with
    | none => exact ⟨fun _ h => h, fun h => h⟩
    | some e =>
      have hne : e.sweep? ≠ some j := fun heq => hj (he e rfl j heq)
      exact ⟨fun _ h => h.other hne, fun h => ⟨h.1.other hne, (calls_other hne).trans h.2⟩⟩
  refine ⟨hw, fun j g hg => ?_, fun j hj => ?_, ?_⟩
  · by_cases hji : j = i
    · rw [hji] at hg ⊢
      rw [List.getElem?_set_self hlt] at hg
      cases hg
      exact hat
    · rw [List.getElem?_set_ne (Ne.symm hji)] at hg
      exact (hother j hji).1 g (h.sweeps j g hg)
  · rw [List.length_set] at hj
    exact (hother j (by omega)).2 (h.fresh j hj)
  · cases e with
    | none => exact h.right
    | some e => exact ⟨hright e rfl, h.right⟩

theorem calls_self {d v : ℕ} {f : Sweep} {pc : Pc} (h : SweepAt i f log) (he : calls i (e :: log) = (d, v) :: calls i log) :
    (f.call pc d v).work = (calls i (e :: log)).reverse := by
  rw [he, List.reverse_cons, ← h.work]
  rfl

theorem sweep_inv (h : Inv s) (i : ℕ) : Inv (s.step (.sweep i)) := by
  unfold State.step
  dsimp only
  cases hf : s.sweeps[i]? with
  | none => exact h
  | some f =>
    have hat := h.sweeps i f hf
    have hmove := @sweepStep_move s.world s.log i f h.held
    dsimp only
    generalize (s.world.sweepStep i f).1 = w, (s.world.sweepStep i f).2.1 = f', (s.world.sweepStep i f).2.2 = e at hmove ⊢
    cases hmove with
    | drained hpc hp hw =>
      refine h.sweep hf hw (fun _ he j hj => by cases he; cases hj; rfl) (fun _ he => by cases he; exact hp) ⟨?_, nofun, ?_⟩
      · exact hat.work
      · intro n idx called hround
        cases hround
        refine ⟨Nat.zero_le _, List.mem_cons_self, fun r t n' k d v hm => ?_⟩
        rcases List.mem_cons.1 hm with hm | hm
        · cases hm
        · exact absurd hm ((hat.atexit hpc).passed r t n' k d v)
    | handled hpc hp hw =>
      have hearly := hat.atexit hpc
      refine h.sweep hf hw (fun _ he j hj => by cases he; cases hj; rfl)
        (fun _ he => by cases he; exact ⟨hp, hearly.drained⟩) ⟨calls_self hat (if_pos rfl), fun _ => ⟨?_, ?_⟩, nofun⟩
      · intro r t hm
        rcases List.mem_cons.1 hm with hm | hm
        · cases hm
        · exact hearly.drained r t hm
      · intro r t n k d v hm
        rcases List.mem_cons.1 hm with hm | hm
        · cases hm
        · exact hearly.passed r t n k d v hm
    | walks hpc hto hw =>
      obtain ⟨hn, hdrained, hpassed⟩ := hat.round _ _ _ hpc
      refine h.sweep hf hw nofun nofun ⟨hat.work, ?_, ?_⟩
      · rintro rfl
        rcases hto with hto | ⟨-, hto | hto⟩ <;> cases hto
      · intro n' idx' called' hround
        rcases hto with rfl | ⟨hne, rfl | rfl⟩
        · cases hround
        · cases hround
          refine ⟨hn, hdrained, fun r t m k d v hm => ?_⟩
          obtain ⟨hr, ht, hlt⟩ := hpassed r t m k d v hm
          exact ⟨hr, ht, hlt.imp_right fun h => ⟨h.1, Nat.lt_succ_of_lt h.2⟩⟩
        · cases hround
          refine ⟨lt_of_le_of_ne hn hne, hdrained, fun r t m k d v hm => ?_⟩
          obtain ⟨hr, ht, hlt⟩ := hpassed r t m k d v hm
          exact ⟨hr, ht, .inl (by omega)⟩
    | passed hpc hn hd hv hne hw =>
      obtain ⟨hle, hdrained, hpassed⟩ := hat.round _ _ _ hpc
      refine h.sweep hf hw (fun _ he j hj => by cases he; cases hj; rfl)
        (fun _ he => by cases he; exact ⟨lt_of_le_of_ne hle hn, hd, hv, hne, hdrained, hpassed⟩)
        ⟨calls_self hat (if_pos rfl), nofun, fun n' idx' called' hround => ?_⟩
      cases hround
      refine ⟨hle, List.mem_cons_of_mem _ hdrained, fun r t m k d v hm => ?_⟩
      rcases List.mem_cons.1 hm with hm | hm
      · cases hm
        exact ⟨rfl, rfl, .inr ⟨rfl, Nat.lt_succ_self _⟩⟩
      · obtain ⟨hr, ht, hlt⟩ := hpassed r t m k d v hm
        exact ⟨hr, ht, hlt.imp_right fun h => ⟨h.1, Nat.lt_succ_of_lt h.2⟩⟩
    | leaves hpc hw => exact h.sweep hf hw nofun nofun ⟨hat.work, nofun, nofun⟩
    | retires hpc hw =>
      exact h.sweep hf hw (fun _ he j hj => by cases he; cases hj) (fun _ he => by cases he; trivial) ⟨hat.work, nofun, nofun⟩
    | rests hpc hw => exact h.sweep hf hw nofun nofun hat

theorem step_inv (h : Inv s) (a : Act) : Inv (s.step a) := by
  cases a with
  | keyCreate r d => exact keyCreate_inv h r d
  | keyDelete r key => exact keyDelete_inv h r key
  | setspecific host r t key v => exact setspecific_inv h host r t key v
  | getspecific host r t key => exact getspecific_inv h host r t key
  | threadAtexit r t d o => exact h.add h.held.registered rfl trivial
  | exit host r t =>
    refine ⟨h.held, fun i f hf => ?_, fun i hi => h.fresh i ?_, h.right⟩
    · rcases lt_or_ge i s.sweeps.length with hlt | hge
      · rw [State.step, List.getElem?_append_left hlt] at hf
        exact h.sweeps i f hf
      · obtain ⟨hearly, hcalls⟩ := h.fresh i hge
        rw [State.step, List.getElem?_append_right hge] at hf
        have hnew := List.mem_of_getElem? hf
        rw [List.mem_singleton] at hnew
        subst hnew
        exact ⟨by rw [State.step, hcalls]; rfl, fun _ => hearly, nofun⟩
    · rw [State.step, List.length_append] at hi
      exact (Nat.le_add_right _ _).trans hi
  | sweep i => exact sweep_inv h i
  | hostGone host =>
    refine h.move (h.held.serves ⟨⟨h.held.blocks.owned, h.held.blocks.owner, fun host' cache hc => ?_⟩, fun _ => rfl,
      fun _ _ _ => rfl⟩)
    dsimp only at hc
    rw [Function.update_apply] at hc
    split at hc
    · cases hc
    · exact h.held.blocks.cached host' cache hc

theorem Inv.start : Inv {} where
  held := Held.start
  sweeps _ _ hf := by cases hf
  fresh _ _ := ⟨⟨fun _ _ => List.not_mem_nil, fun _ _ _ _ _ _ => List.not_mem_nil⟩, rfl⟩
  right := trivial

theorem reachable_inv (h : Reachable s) : Inv s := h.invariant Inv Inv.start fun _ a _ _ hi => step_inv hi a

end Runs

/-! ## Each value once -/

/-- the store whose value a thread has, by how many events came before it -/
def source (registry thread key : ℕ) : List Event → Option ℕ
  | [] => none
  | .created r k _ :: log => if r = registry ∧ k = key then none else source registry thread key log
  | .deleted r k :: log => if r = registry ∧ k = key then none else source registry thread key log
  | .stored r t k _ :: log =>
    if r = registry ∧ t = thread ∧ k = key then some log.length else source registry thread key log
  | .passed _ r t _ k _ _ :: log =>
    if r = registry ∧ t = thread ∧ k = key then none else source registry thread key log
  | .retired r t :: log => if r = registry ∧ t = thread then none else source registry thread key log
  | _ :: log => source registry thread key log

/-- the stores whose values have been passed to destructors -/
def taken : List Event → List ℕ
  | [] => []
  | .passed _ r t _ k _ _ :: log => (source r t k log).toList ++ taken log
  | _ :: log => taken log

section Once

variable {log : List Event} {e : Event} {r t k r' t' k' p : ℕ}

/-- an event leaves the store that counts, or is it -/
theorem source_cons (h : source r t k (e :: log) = some p) :
    source r t k log = some p ∧ lookup r t k (e :: log) = lookup r t k log ∨
      p = log.length ∧ e = .stored r t k (lookup r t k (e :: log)) := by
  cases e with
  | stored r' t' k' v =>
    rw [source] at h
    rw [lookup]
    split at h
    · next heq =>
      obtain ⟨rfl, rfl, rfl⟩ := heq
      exact .inr ⟨(Option.some.inj h).symm, by rw [if_pos ⟨rfl, rfl, rfl⟩]⟩
    · next hne => exact .inl ⟨h, if_neg hne⟩
  | created | deleted | passed | retired =>
    rw [source] at h
    rw [lookup]
    split at h
    · cases h
    · next hne => exact .inl ⟨h, if_neg hne⟩
  | _ => exact .inl ⟨h, rfl⟩

theorem source_spec (h : source r t k log = some p) : ∃ newer older,
    log = newer ++ .stored r t k (lookup r t k log) :: older ∧ older.length = p := by
  induction log with
  | nil => cases h
  | cons e log ih =>
    rcases source_cons h with ⟨hlog, hl⟩ | ⟨rfl, he⟩
    · obtain ⟨newer, older, heq, hlen⟩ := ih hlog
      exact ⟨e :: newer, older, by rw [hl, List.cons_append, ← heq], hlen⟩
    · exact ⟨[], log, congrArg (· :: log) he, rfl⟩

theorem source_of_lookup (h : lookup r t k log ≠ 0) : ∃ p, source r t k log = some p := by
  induction log with
  | nil => exact absurd rfl h
  | cons e log ih =>
    cases e with
    | stored =>
      rw [lookup] at h
      rw [source]
      split at h
      · next heq => exact ⟨_, if_pos heq⟩
      · next hne =>
        rw [if_neg hne]
        exact ih h
    | created | deleted | passed | retired =>
      rw [lookup] at h
      rw [source]
      split at h
      · exact absurd rfl h
      · next hne =>
        rw [if_neg hne]
        exact ih h
    | _ => exact ih h

theorem source_lt (h : source r t k log = some p) : p < log.length := by
  obtain ⟨newer, older, heq, rfl⟩ := source_spec h
  rw [heq, List.length_append, List.length_cons]
  omega

/-- a store is of one thread and one key -/
theorem source_inj (h : source r t k log = some p) (h' : source r' t' k' log = some p) : r = r' ∧ t = t' ∧ k = k' := by
  obtain ⟨newer, older, heq, hlen⟩ := source_spec h
  obtain ⟨newer', older', heq', hlen'⟩ := source_spec h'
  have hboth := heq.symm.trans heq'
  have htail := List.append_inj_right' hboth (by rw [List.length_cons, List.length_cons, hlen, hlen'])
  cases htail
  exact ⟨rfl, rfl, rfl⟩

/-- a store that has been taken counts no more -/
theorem taken_cons (h : ∀ p ∈ taken log, p < log.length ∧ ∀ r t k, source r t k log ≠ some p) :
    ∀ p ∈ taken (e :: log), p < (e :: log).length ∧ ∀ r t k, source r t k (e :: log) ≠ some p := by
  have hold : ∀ p ∈ taken log, p < (e :: log).length ∧ ∀ r t k, source r t k (e :: log) ≠ some p := by
    intro p hp
    obtain ⟨hlt, hne⟩ := h p hp
    refine ⟨Nat.lt_succ_of_lt hlt, fun r t k hs => ?_⟩
    rcases source_cons hs with ⟨hlog, -⟩ | ⟨heq, -⟩
    · exact hne r t k hlog
    · omega
  cases e with
  | passed s r t n k d v =>
    intro p hp
    rcases List.mem_append.1 hp with hp | hp
    · have hs : source r t k log = some p := Option.mem_toList.1 hp
      refine ⟨Nat.lt_succ_of_lt (source_lt hs), fun r' t' k' hs' => ?_⟩
      rcases source_cons hs' with ⟨hlog, -⟩ | ⟨-, he⟩
      · obtain ⟨rfl, rfl, rfl⟩ := source_inj hs hlog
        rw [source, if_pos ⟨rfl, rfl, rfl⟩] at hs'
        cases hs'
      · cases he
    · exact hold p hp
  | _ => exact hold

theorem taken_spec (log : List Event) :
    (taken log).Nodup ∧ ∀ p ∈ taken log, p < log.length ∧ ∀ r t k, source r t k log ≠ some p := by
  induction log with
  | nil => exact ⟨List.nodup_nil, nofun⟩
  | cons e log ih =>
    refine ⟨?_, taken_cons ih.2⟩
    cases e with
    | passed s r t n k d v =>
      show ((source r t k log).toList ++ taken log).Nodup
      cases hs : source r t k log with
      | none => exact ih.1
      | some p => exact List.nodup_cons.2 ⟨fun hp => (ih.2 p hp).2 r t k hs, ih.1⟩
    | _ => exact ih.1

end Once

/-! ## The whole -/

theorem AllRight.at {newer older : List Event} {e : Event} (h : AllRight (newer ++ e :: older)) : Right older e := by
  induction newer with
  | nil => exact h.1
  | cons e' newer ih => exact ih h.2

theorem getspecific_eq {s : State} (h : Inv s) (host r t k : ℕ) : (s.world.getspecific host r t k).1 = lookup r t k s.log :=
  (getspecific_inv h host r t k).right.1

/-- in every run: a key holds what the log says, whichever host thread asks; `EAGAIN` is for 128 keys; all that happened is
right; a sweep has the calls it made, in order, to return; a value passed to a destructor is one the thread stored, and no
store's value is passed twice -/
theorem tls_storage {s : State} (h : Reachable s) :
    (∀ host r t k, (s.world.getspecific host r t k).1 = lookup r t k s.log) ∧
      (∀ r d e r', (s.world.registries r).keyCreate d = some (.error e, r') →
        ∀ k < PTHREAD_KEYS_MAX, (destructor r k s.log).isSome) ∧
      AllRight s.log ∧
      (∀ i f, s.sweeps[i]? = some f → f.work = (calls i s.log).reverse) ∧
      (∀ newer older i r t n k d v, s.log = newer ++ .passed i r t n k d v :: older → ∃ p newer' older',
        source r t k older = some p ∧ older = newer' ++ .stored r t k v :: older' ∧ older'.length = p) ∧
      (taken s.log).Nodup := by
  have hinv := reachable_inv h
  refine ⟨getspecific_eq hinv, fun r d e r' hfull k hk => ?_, hinv.right, fun i f hf => (hinv.sweeps i f hf).work, ?_,
    (taken_spec s.log).1⟩
  · rw [hinv.held.keys, Option.isSome_map]
    exact ((hinv.held.table r).keyCreate hfull).2.2 k hk
  · intro newer older i r t n k d v heq
    have hright := hinv.right
    rw [heq] at hright
    obtain ⟨-, -, rfl, hne, -⟩ := hright.at
    obtain ⟨p, hp⟩ := source_of_lookup hne
    obtain ⟨newer', older', hlog, hlen⟩ := source_spec hp
    exact ⟨p, newer', older', hp, hlog, hlen⟩

/-- a key's value is set from one host thread, read from another, and destroyed at the exit -/
def oneKey : List Act :=
  [.keyCreate 0 7, .setspecific 1 0 5 0 99, .getspecific 2 0 5 0, .threadAtexit 0 5 3 4, .exit 2 0 5, .sweep 0, .sweep 0,
    .sweep 0, .sweep 0, .sweep 0, .sweep 0, .sweep 0, .getspecific 1 0 5 0]

theorem tls_storage_oneKey : (run State.step {} oneKey).log =
      [.got 0 5 0 0, .retired 0 5, .passed 0 0 5 0 0 7 99, .drained 0 0 5, .handled 0 0 5 3 4, .registered 0 5 3 4,
        .got 0 5 0 99, .stored 0 5 0 99, .created 0 0 7] ∧
    ∀ i f, (run State.step {} oneKey).sweeps[i]? = some f → f.work = (calls i (run State.step {} oneKey).log).reverse :=
  ⟨by decide, (tls_storage (reach_run State.step {} oneKey)).2.2.2.1⟩

end Omnidroid.Bionic.Tls
