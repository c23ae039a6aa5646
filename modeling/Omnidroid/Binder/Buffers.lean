/-
The receive areas and the records of delivered buffers.
- `insertUsed_findGap`: the gap that is found is one, in which none of the buffers in use starts.
- `step_records`: only a delivery, `BC_FREE_BUFFER` and a process's end change the records. `step_record`: what one is then.
-/
import Omnidroid.Binder.Flow

namespace Omnidroid.Binder

/-! ## The allocator -/

/-- buffers in use from `lo` on: by offset, none empty, none meeting the next -/
def Packed : ℕ → List (ℕ × ℕ) → Prop
  | _, [] => True
  | lo, (off, l) :: rest => lo ≤ off ∧ 0 < l ∧ Packed (off + l) rest

theorem Packed.mono {lo lo' : ℕ} (h : lo' ≤ lo) {used : List (ℕ × ℕ)} (hp : Packed lo used) : Packed lo' used := by
  cases used with
  | nil => trivial
  | cons e rest => exact ⟨h.trans hp.1, hp.2⟩

theorem Packed.le {lo : ℕ} {used : List (ℕ × ℕ)} (hp : Packed lo used) {e : ℕ × ℕ} (he : e ∈ used) : lo ≤ e.1 := by
  induction used generalizing lo with
  | nil => cases he
  | cons f rest ih =>
    obtain ⟨h1, h2, h3⟩ := hp
    rcases List.mem_cons.1 he with rfl | he
    · exact h1
    · have := ih h3 he; omega

theorem Packed.filter {lo : ℕ} {used : List (ℕ × ℕ)} (hp : Packed lo used) (p : ℕ × ℕ → Bool) :
    Packed lo (used.filter p) := by
  induction used generalizing lo with
  | nil => trivial
  | cons f rest ih =>
    obtain ⟨h1, h2, h3⟩ := hp
    rw [List.filter_cons]
    split
    · exact ⟨h1, h2, ih h3⟩
    · exact (ih h3).mono (by omega)

/-- the gap found is a gap: what goes there meets nothing, and starts where nothing else does -/
theorem insertUsed_findGap {len : ℕ} (hlen : 0 < len) (lo : ℕ) (used : List (ℕ × ℕ)) (hp : Packed lo used) :
    Packed lo (insertUsed (findGap len lo used) len used) ∧ lo ≤ findGap len lo used ∧
      (∀ e ∈ used, e.1 ≠ findGap len lo used) ∧
      ∀ e, e ∈ insertUsed (findGap len lo used) len used ↔ e = (findGap len lo used, len) ∨ e ∈ used := by
  induction used generalizing lo with
  | nil => exact ⟨⟨le_rfl, hlen, trivial⟩, le_rfl, fun e he => (List.not_mem_nil he).elim, fun e => by simp [insertUsed, findGap]⟩
  | cons f rest ih =>
    obtain ⟨off, l⟩ := f
    obtain ⟨h1, h2, h3⟩ := hp
    unfold findGap
    split_ifs with hg
    · have hlt : lo < off := by omega
      refine ⟨?_, le_rfl, fun e he => ?_, fun e => ?_⟩
      · rw [insertUsed, if_pos hlt]
        exact ⟨le_rfl, hlen, by omega, h2, h3⟩
      · rcases List.mem_cons.1 he with rfl | he
        · exact Nat.ne_of_gt hlt
        · have := h3.le he; omega
      · rw [insertUsed, if_pos hlt, List.mem_cons]
    · obtain ⟨i1, i2, i3, i4⟩ := ih (off + l) h3
      have hne : ¬ findGap len (off + l) rest < off := by omega
      have hne' : findGap len (off + l) rest ≠ off := by omega
      refine ⟨?_, by omega, fun e he => ?_, fun e => ?_⟩
      · rw [insertUsed, if_neg hne, if_neg hne']
        exact ⟨h1, h2, i1⟩
      · rcases List.mem_cons.1 he with rfl | he
        · exact hne'.symm
        · exact i3 e he
      · rw [insertUsed, if_neg hne, if_neg hne', List.mem_cons, i4 e, List.mem_cons]
        tauto

/-! ## Which steps keep the records -/

/-- the records, and what was lost with records replaced -/
def State.records (s : State) : Map (ProcId × ℕ) Buffer × List NodeId := (s.buffers, s.lost)

theorem Calm.records {s s' : State} (h : Calm s s') : s'.records = s.records := Prod.ext h.buffers h.lost

theorem queue_records (s : State) (id : ProcId) (tid : Option Tid) (work : Work) :
    (s.queue id tid work).records = s.records := by
  cases tid <;> rfl

theorem asyncDone_records (s : State) (node : NodeId) (owner : ProcId) : (s.asyncDone node owner).records = s.records := by
  unfold State.asyncDone
  repeat' split
  all_goals rfl

theorem queueOneway_records (s : State) (target : ProcId) (node : NodeId) (txn : Txn) :
    (s.queueOneway target node txn).records = s.records := by
  unfold State.queueOneway
  dsimp only
  repeat' split
  all_goals rfl

theorem doneWith_records (s : State) (node : Option NodeId) (owner : ProcId) :
    (s.doneWith node owner).records = s.records := by
  cases node with
  | none => rfl
  | some n => exact asyncDone_records s n owner

theorem tellSender_records (s : State) (txn : Txn) (answer : Work) : (s.tellSender txn answer).records = s.records := by
  unfold State.tellSender
  repeat' split
  all_goals rfl

theorem unpin_records (s : State) (l : List NodeId) : (s.unpin l).records = s.records := (unpin_calm s l).records

theorem Moves.records {s s' : State} (h : Moves s s') (hf : s.Fresh) : s'.records = s.records := (h.calm hf).records

theorem complete_records (s : State) (th : Thread) : (s.complete th).records = s.records := queue_records _ _ _ _

theorem Sent.records {s s' : State} {th : Thread} {k : ℕ} (h : Sent s th k s') (hf : s.Fresh) :
    s'.records = s.records := by
  cases h with
  | nothing h _ => exact h.records hf
  | intercepted => rw [queue_records, complete_records]; rfl
  | hostedOneway h _ => rw [complete_records]; exact h.records hf
  | hosted h _ => rw [complete_records]; exact h.records hf
  | oneway txn h _ _ node n => rw [complete_records, queueOneway_records]; exact h.moves.records hf
  | call txn h => rw [complete_records, queue_records]; exact h.moves.records hf

theorem Replied.records {s s' : State} {th : Thread} {sv : Option Served} (h : Replied s th sv s') (hf : s.Fresh) :
    s'.records = s.records := by
  cases h with
  | nothing h _ _ => exact h.records hf
  | sent c k _ txn h => rw [complete_records, queue_records]; exact h.records hf
  | failed c k _ h _ => rw [queue_records]; exact h.records hf

theorem HostSent.records {s s' : State} {k : ℕ} (h : HostSent s k s') (hf : s.Fresh) : s'.records = s.records := by
  cases h with
  | nothing h _ => exact h.records hf
  | oneway txn h _ _ node n => rw [queueOneway_records]; exact h.moves.records hf
  | call txn h => rw [queue_records]; exact h.moves.records hf

theorem HostAnswered.records {s s' : State} {job : HostJob} (h : HostAnswered s job s') (hf : s.Fresh) :
    s'.records = s.records := by
  cases h with
  | nothing => rfl
  | failed _ h _ => rw [queue_records]; exact h.records hf
  | sent _ txn h => rw [queue_records]; exact h.records hf

theorem dropWork_records (receiver : ProcId) (s : State) (work : Work) :
    (State.dropWork receiver s work).records = s.records := by
  cases work with
  | txn txn => simp only [State.dropWork, unpin_records, doneWith_records, tellSender_records]
  | _ => rfl

theorem foldl_records {α : Type} {f : State → α → State} (hf : ∀ s a, (f s a).records = s.records) (l : List α)
    (s : State) : (l.foldl f s).records = s.records := by
  induction l generalizing s with
  | nil => rfl
  | cons a l ih => rw [List.foldl_cons, ih, hf]

theorem failServed_records (s : State) (sv : Served) : (s.failServed sv).records = s.records := by
  unfold State.failServed
  split
  · exact queue_records _ _ _ _
  · rfl

theorem failUndelivered_records (s : State) (th : Thread) (txn : Txn) :
    (s.failUndelivered th txn).records = s.records := by
  unfold State.failUndelivered
  dsimp only
  split
  · exact unpin_records _ _
  · rw [tellSender_records, doneWith_records, unpin_records]

theorem threadExit_records (s : State) (th : Thread) : (s.threadExit th).records = s.records := by
  unfold State.threadExit
  split
  · rfl
  · split
    · rfl
    · dsimp only
      rw [foldl_records (dropWork_records th.1)]
      split
      · exact queue_records _ _ _ _
      · rfl

/-- a freed buffer's record, and only that, goes -/
theorem freeRecord_records (s : State) (id : ProcId) (buf : ℕ) :
    (s.freeRecord id buf).records = (s.buffers.erase (id, buf), s.lost) := by
  unfold State.freeRecord
  split
  · rename_i h; rw [Map.erase_of_lookup_none h]; rfl
  · rw [unpin_records, doneWith_records]; rfl

theorem freeRecord_lookup (s : State) (id : ProcId) (buf : ℕ) (k : ProcId × ℕ) :
    (s.freeRecord id buf).buffers.lookup k = if k = (id, buf) then none else s.buffers.lookup k := by
  rw [← Map.lookup_erase_eq]
  exact congrArg (fun r => AList.lookup k r.1) (freeRecord_records s id buf)

theorem undeliver_records (s : State) (th : Thread) (h : Handed) :
    (s.undeliver th h).records = (s.buffers.erase (th.1, h.buf), s.lost) := by
  have hu : ∀ s : State, (s.unserve th h.from_).records = s.records := fun s => by
    unfold State.unserve; split <;> rfl
  rw [← freeRecord_records]
  unfold State.undeliver
  dsimp only
  split
  · rfl
  · split
    · rw [queue_records, hu]
    · rw [hu]

theorem dropBuffer_records (id : ProcId) (s : State) (addr : ℕ) :
    (State.dropBuffer id s addr).records = (s.buffers.erase (id, addr), s.lost) := by
  unfold State.dropBuffer
  split
  · rename_i h; rw [Map.erase_of_lookup_none h]; rfl
  · rw [unpin_records]; rfl

theorem dropBuffers_lookup (id : ProcId) (l : List ℕ) (s : State) (k : ProcId × ℕ) :
    (l.foldl (State.dropBuffer id) s).buffers.lookup k =
      if k.1 = id ∧ k.2 ∈ l then none else s.buffers.lookup k := by
  induction l generalizing s with
  | nil => simp
  | cons addr l ih =>
    have h := congrArg (fun r => AList.lookup k r.1) (dropBuffer_records id s addr)
    simp only [State.records, Map.lookup_erase_eq] at h
    rw [List.foldl_cons, ih, h]
    by_cases h1 : k.1 = id
    · by_cases h2 : k.2 = addr
      · have : k = (id, addr) := Prod.ext h1 h2
        simp [this]
      · have : k ≠ (id, addr) := fun h => h2 (by rw [h])
        simp [h1, h2, this]
    · have : k ≠ (id, addr) := fun h => h1 (by rw [h])
      simp [h1, this]

theorem dropBuffers_lost (id : ProcId) (l : List ℕ) (s : State) :
    (l.foldl (State.dropBuffer id) s).lost = s.lost := by
  induction l generalizing s with
  | nil => rfl
  | cons addr l ih => exact (ih _).trans (congrArg Prod.snd (dropBuffer_records id s addr))

theorem killNode_records (s : State) (node : NodeId) : (s.killNode node).1.records = s.records := by
  unfold State.killNode
  split
  · rfl
  · rw [(dropContextMgr_calm _ node).records, (tellWatchers_calm _ _).records]; rfl

theorem killNodes_records (s : State) (l : List NodeId) : (s.killNodes l).1.records = s.records := by
  induction l generalizing s with
  | nil => rfl
  | cons n l ih => exact (ih _).trans (killNode_records s n)

theorem mem_buffersOf {s : State} {id : ProcId} {addr : ℕ} :
    addr ∈ s.buffersOf id ↔ (s.buffers.lookup (id, addr)).isSome := by
  rw [AList.lookup_isSome, AList.mem_keys]
  simp only [State.buffersOf, List.mem_filterMap, Option.ite_none_right_eq_some, Option.some.injEq]
  constructor
  · rintro ⟨k, hk, h1, h2⟩
    rwa [← h1, ← h2]
  · intro h
    exact ⟨(id, addr), h, rfl, rfl⟩

/-- until its buffers are dropped, a release leaves the records alone -/
theorem releasing_records (s : State) (id : ProcId) (o : ReleaseOrder) :
    ((s.bury id o).2.dropped.foldl (State.dropWork id)
      ((s.bury id o).2.serving.foldl State.failServed (s.bury id o).1)).records = s.records := by
  rw [foldl_records (dropWork_records id), foldl_records failServed_records]
  exact killNodes_records s o.nodes

theorem releases_records (l : List NodeId) (s : State) :
    (l.foldl State.releaseIfUnreferenced s).records = s.records :=
  foldl_records (fun s n => (releaseIfUnreferenced_calm s n).records) l s

theorem release_lost (s : State) (id : ProcId) (o : ReleaseOrder) : (s.release id o).lost = s.lost :=
  (congrArg Prod.snd (releases_records _ _)).trans
    ((dropBuffers_lost id o.buffers _).trans (congrArg Prod.snd (releasing_records s id o)))

/-- a release drops the process's records, and only those -/
theorem release_lookup (s : State) (id : ProcId) (o : ReleaseOrder) (ho : o.Valid s id) (k : ProcId × ℕ) :
    (s.release id o).buffers.lookup k = if k.1 = id then none else s.buffers.lookup k := by
  have h2 := dropBuffers_lookup id o.buffers ((s.bury id o).2.dropped.foldl (State.dropWork id)
    ((s.bury id o).2.serving.foldl State.failServed (s.bury id o).1)) k
  rw [show (List.foldl (State.dropWork id) _ _).buffers = s.buffers from
    congrArg Prod.fst (releasing_records s id o)] at h2
  have h3 : (s.release id o).buffers = _ := congrArg Prod.fst (releases_records (s.bury id o).2.held _)
  rw [h3]
  refine h2.trans ?_
  by_cases hk : k.1 = id
  · rw [if_pos hk]
    split_ifs with hm
    · rfl
    · have hn : k.2 ∉ s.buffersOf id := fun hmem => hm ⟨hk, ho.2.2.mem_iff.2 hmem⟩
      rw [mem_buffersOf, Option.not_isSome_iff_eq_none, ← hk] at hn
      exact hn
  · simp [hk]

/-- the actions that touch the records -/
def Act.records : Act → Bool
  | .release .. | .freeBuffer .. | .place .. | .copyOut .. => true
  | _ => false

namespace World

theorem step_records (w : World) (hb : Basic w) (a : Act) (ha : a.records = false) :
    (step w a).st.records = w.st.records := by
  by_cases ht : a.traffic = false
  · exact (step_idle w hb a ht).records
  cases a with
  | threadExit th =>
    simp only [step]; split
    · exact threadExit_records w.st th
    · rfl
  | transaction th env tr =>
    simp only [step]; split
    · exact (transaction_sent w.st env th tr hb.fresh hb.host).records hb.fresh
    · rfl
  | reply th env tr =>
    simp only [step]; split
    · exact (reply_replied w.st env th tr hb.fresh hb.host).records ((Still.updThread w.st th _).fresh hb.fresh)
    · rfl
  | look th env =>
    simp only [step]; split
    · split
      · unfold look; split <;> rfl
      · rfl
    · rfl
  | deliver th =>
    simp only [step]; split
    · split
      · unfold deliver; split
        · split
          · exact failUndelivered_records w.st th _
          · rfl
        · show (w.st.hear th _).records = _
          unfold State.hear; split <;> rfl
      · rfl
    · rfl
  | hostTransact euid h code data offsets serving =>
    exact (hostTransact_sent w.st euid h code data offsets serving hb.fresh).records hb.fresh
  | hostLook tid =>
    show (w.st.hostLook tid).records = _
    unfold State.hostLook; split
    · rfl
    · split <;> rfl
  | hostGiveUp tid => rfl
  | hostTransactOneway h code data offsets =>
    exact (hostTransactOneway_sent w.st h code data offsets hb.fresh).records hb.fresh
  | hostReply i reply =>
    simp only [step, onState, State.hostReply]
    split
    · rfl
    · exact (hostAnswer_answered { w.st with jobs := w.st.jobs.eraseIdx i } _ reply hb.fresh).records hb.fresh
  | _ => first | exact Bool.noConfusion ha | exact absurd rfl ht

/-- the delivery a step records: of a transaction that holds something until its buffer is freed -/
def recording (w : World) : Act → Option (Thread × Txn × ℕ)
  | .place th env =>
    match w.reads.lookup th with
    | some r =>
      match r.phase with
      | .placing t buf =>
        if (fill env t buf).result.isOk && (t.asyncNode.isSome || t.pinned ≠ []) then some (th, t, buf) else none
      | _ => none
    | none => none
  | _ => none

theorem placed_records (s : State) (th : Thread) (buf : ℕ) (t : Txn) :
    (s.placed th buf t).records = (s.recordBuffer th buf t).records := by
  have hl : ∀ s : State, (s.logDelivered t.asyncNode t.serial).records = s.records := fun s => by
    unfold State.logDelivered
    repeat' split
    all_goals rfl
  unfold State.placed
  dsimp only
  repeat' split
  all_goals exact hl _

theorem step_place (w : World) (th : Thread) (env : PlaceEnv) :
    w.recording (.place th env) = none ∧ (step w (.place th env)).st.records = w.st.records ∨
    ∃ t buf, w.recording (.place th env) = some (th, t, buf) ∧ (step w (.place th env)).st.records =
      (w.st.buffers.insert (th.1, buf) ⟨t.asyncNode, t.pinned, th.2, t.code⟩,
        w.st.lost ++ (w.st.buffers.lookup (th.1, buf)).elim [] (·.pinned)) := by
  cases hr : w.reads.lookup th with
  | none => exact .inl (by simp [step, recording, hr])
  | some r =>
    cases hph : r.phase with
    | placing t buf =>
      have hs : step w (.place th env) = w.place th r t buf env := by simp only [step, hr, hph]
      have hrec : w.recording (.place th env) =
          if (fill env t buf).result.isOk && (t.asyncNode.isSome || t.pinned ≠ []) then some (th, t, buf) else none := by
        simp only [recording, hr, hph]
      rw [hs, hrec]
      cases he : (fill env t buf).result with
      | error e =>
        rw [place_error he]
        exact .inl ⟨rfl, failUndelivered_records w.st th t⟩
      | ok b =>
        obtain ⟨fds, hp⟩ := place_ok w th r he
        rw [hp]
        by_cases hk : (t.asyncNode.isSome || t.pinned ≠ []) = true
        · refine .inr ⟨t, buf, if_pos hk, (placed_records w.st th buf t).trans ?_⟩
          rw [State.recordBuffer, if_pos hk]; rfl
        · refine .inl ⟨if_neg hk, (placed_records w.st th buf t).trans ?_⟩
          rw [State.recordBuffer, if_neg hk]
    | _ => exact .inl (by simp [step, recording, hr, hph])

theorem step_copyOut (w : World) (th : Thread) (write : Except Errno Unit) :
    (step w (.copyOut th write)).st.records = w.st.records ∨
      ∃ buf, (step w (.copyOut th write)).st.records = (w.st.buffers.erase (th.1, buf), w.st.lost) := by
  simp only [step]
  split
  · split
    · rename_i handed _
      unfold copyOut
      split
      · exact .inl rfl
      · cases handed with
        | none => exact .inl rfl
        | some h => exact .inr ⟨h.buf, undeliver_records w.st th h⟩
    · exact .inl rfl
  · exact .inl rfl

/-- only a delivery recorded in a record's place loses what that held -/
theorem step_lost (w : World) (hb : Basic w) (a : Act) :
    (step w a).st.lost = w.st.lost ++
      ((w.recording a).bind fun x => w.st.buffers.lookup (x.1.1, x.2.2)).elim [] (·.pinned) := by
  by_cases ha : a.records = false
  · have hn : w.recording a = none := by cases a <;> first | rfl | cases ha
    rw [hn, show (step w a).st.lost = w.st.lost from congrArg Prod.snd (step_records w hb a ha)]
    simp
  cases a with
  | release id o =>
    simp only [step]; split
    · exact (release_lost w.st id o).trans (List.append_nil _).symm
    · exact (List.append_nil _).symm
  | freeBuffer th ptr =>
    simp only [step]; split
    · exact (congrArg Prod.snd (freeRecord_records w.st th.1 ptr.toNat)).trans (List.append_nil _).symm
    · exact (List.append_nil _).symm
  | place th env =>
    rcases step_place w th env with ⟨h, h'⟩ | ⟨t, buf, h, h'⟩
    · rw [h]; exact (congrArg Prod.snd h').trans (List.append_nil _).symm
    · rw [h]; exact congrArg Prod.snd h'
  | copyOut th write =>
    refine Eq.trans ?_ (List.append_nil _).symm
    rcases step_copyOut w th write with h | ⟨buf, h⟩
    · exact congrArg Prod.snd h
    · exact congrArg Prod.snd h
  | _ => exact absurd rfl ha

/-- a record is new only where a delivery is recorded, and a release leaves the process none -/
theorem step_record (w : World) (hb : Basic w) (a : Act) (k : ProcId × ℕ)
    (hk : ((step w a).st.buffers.lookup k).isSome) :
    (w.st.buffers.lookup k).isSome ∧ (∀ o, a = .release k.1 o → step w a = w) ∨
      ∃ x, w.recording a = some x ∧ k = (x.1.1, x.2.2) := by
  by_cases ha : a.records = false
  · rw [show (step w a).st.buffers = w.st.buffers from congrArg Prod.fst (step_records w hb a ha)] at hk
    exact .inl ⟨hk, fun o he => by rw [he] at ha; cases ha⟩
  cases a with
  | release id o =>
    left
    simp only [step] at hk ⊢
    split at hk
    · rename_i hv
      simp only [onState, release_lookup w.st id o hv.2.2 k] at hk
      split_ifs at hk with he
      · cases hk
      · exact ⟨hk, fun o' ho => by cases ho; exact absurd rfl he⟩
    · rename_i hv
      exact ⟨hk, fun _ _ => if_neg hv⟩
  | freeBuffer th ptr =>
    left
    refine ⟨?_, fun o he => by cases he⟩
    simp only [step] at hk
    split at hk
    · simp only [freeBuffer, freeRecord_lookup] at hk
      split_ifs at hk
      · cases hk
      · exact hk
    · exact hk
  | place th env =>
    rcases step_place w th env with ⟨h, h'⟩ | ⟨t, buf, h, h'⟩
    · rw [show (step w (.place th env)).st.buffers = _ from congrArg Prod.fst h'] at hk
      exact .inl ⟨hk, fun o he => by cases he⟩
    · rw [show (step w (.place th env)).st.buffers = _ from congrArg Prod.fst h', Map.lookup_insert_eq] at hk
      split_ifs at hk with he
      · exact .inr ⟨_, h, he⟩
      · exact .inl ⟨hk, fun o he => by cases he⟩
  | copyOut th write =>
    left
    refine ⟨?_, fun o he => by cases he⟩
    rcases step_copyOut w th write with h | ⟨buf, h⟩
    · rw [show (step w (.copyOut th write)).st.buffers = _ from congrArg Prod.fst h] at hk; exact hk
    · rw [show (step w (.copyOut th write)).st.buffers = _ from congrArg Prod.fst h, Map.lookup_erase_eq] at hk
      split_ifs at hk
      · cases hk
      · exact hk
  | _ => exact absurd rfl ha

end World

end Omnidroid.Binder
