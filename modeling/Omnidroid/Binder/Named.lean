/-
What names a node: the context manager, each process's handles, the addresses of its own objects. `Named s`: every one of
them names a node that is there. Nodes are never taken away, so a step keeps this where it makes a name only for a node
it finds or has just made (`reach_named`).
-/
import Omnidroid.Binder.Track

namespace Omnidroid.Binder

def State.There (s : State) (n : NodeId) : Prop := (s.nodes.lookup n).isSome

structure Named (s : State) : Prop where
  manager : ∀ n, s.contextMgr = some n → s.There n
  handles : ∀ id h n, (s.proc id).refs.lookup h = some n → s.There n
  objects : ∀ k n, s.localNodes.lookup k = some n → s.There n

theorem State.There.setNode {s : State} {n m : NodeId} {nd : Node} (h : s.There n) : (s.setNode m nd).There n := by
  unfold State.There State.setNode
  rw [Map.lookup_insert_eq]
  split_ifs
  · rfl
  · exact h

namespace Named

variable {s : State} (h : Named s)
include h

theorem still {s' : State} (hs : Still s s') : Named s' := by
  have there : ∀ n, s.There n → s'.There n := fun n hn => by
    obtain ⟨nd, hnd⟩ := Option.isSome_iff_exists.1 hn
    obtain ⟨nd', hnd', -⟩ := hs.lookup hnd
    exact Option.isSome_iff_exists.2 ⟨nd', hnd'⟩
  refine ⟨fun n hn => there n (h.manager n (hs.contextMgr ▸ hn)), fun id hd n hn => there n (h.handles id hd n ?_),
    fun k n hn => there n (h.objects k n (hs.localNodes ▸ hn))⟩
  rw [← show (s'.proc id).refs = (s.proc id).refs from congrArg Table.refs (hs.table id)]
  exact hn

theorem setNode (n : NodeId) (nd : Node) : Named (s.setNode n nd) where
  manager m hm := (h.manager m hm).setNode
  handles id hd m hm := (h.handles id hd m hm).setNode
  objects k m hm := (h.objects k m hm).setNode

theorem setProc (id : ProcId) (p : ProcState) (hp : ∀ hd n, p.refs.lookup hd = some n → s.There n) :
    Named (s.setProc id p) where
  manager := h.manager
  handles id' hd n hn := by
    rw [State.proc_setProc] at hn
    split_ifs at hn
    · exact hp hd n hn
    · exact h.handles id' hd n hn
  objects := h.objects

theorem queue (id : ProcId) (tid : Option Tid) (work : Work) : Named (s.queue id tid work) :=
  h.still (Still.queue s id tid work)

theorem pin (n : NodeId) : Named (s.pin n) := ⟨h.manager, h.handles, h.objects⟩

theorem localNode (owner : ProcId) (ptr cookie : UInt64) (flags : UInt32) :
    Named (s.localNode owner ptr cookie flags).1 ∧
      (s.localNode owner ptr cookie flags).1.There (s.localNode owner ptr cookie flags).2 := by
  unfold State.localNode
  split
  · rename_i n hn
    exact ⟨h, h.objects _ n hn⟩
  · generalize ({ owner := owner, ptr := ptr, cookie := cookie, txnSecurityCtx := _ } : Node) = nd
    have hnew : (s.addNode nd).There (s.nextNode + 1) := by
      unfold State.There State.addNode
      rw [AList.lookup_insert]
      rfl
    have hold : ∀ n, s.There n → (s.addNode nd).There n := fun n hn => by
      unfold State.There State.addNode
      rw [Map.lookup_insert_eq]
      split_ifs
      · rfl
      · exact hn
    refine ⟨⟨fun n hn => hold n (h.manager n hn), fun id hd n hn => hold n (h.handles id hd n hn), fun k n hn => ?_⟩, hnew⟩
    simp only [State.addNode, Map.lookup_insert_eq] at hn
    split_ifs at hn
    · cases hn
      exact hnew
    · exact hold n (h.objects k n hn)

theorem handleFor (id : ProcId) {node : NodeId} (sender : Option Thread) (hn : s.There node) :
    Named (s.handleFor id node sender).1 := by
  have hgive : Named (s.setProc id ((s.proc id).give node).1) := by
    refine h.setProc id _ fun hd n hl => ?_
    simp only [ProcState.give, Map.lookup_insert_eq] at hl
    split_ifs at hl
    · cases hl
      exact hn
    · exact h.handles id hd n hl
  unfold State.handleFor
  dsimp only
  split
  · exact h
  · split
    · exact h
    · split
      · exact hgive
      · split
        · exact hgive
        · exact ((hgive.setNode _ _).queue _ _ _).queue _ _ _

theorem exportLocal (sender : Thread) (target : ProcId) (kind flags : UInt32) (ptr cookie : UInt64)
    (pins : List NodeId) : Named (s.exportLocal sender target kind flags ptr cookie pins).1 := by
  obtain ⟨hl, hn⟩ := h.localNode sender.1 ptr cookie flags
  unfold State.exportLocal
  dsimp only
  split
  · exact hl.pin _
  · exact (hl.pin _).handleFor _ _ hn

theorem nodeForHandle {id : ProcId} {hd : UInt32} {n : NodeId} (hn : s.nodeForHandle id hd = some n) : s.There n := by
  unfold State.nodeForHandle at hn
  split_ifs at hn
  · exact h.manager n hn
  · exact h.handles id hd n hn

theorem forwardHandle (sender : Thread) (target : ProcId) (kind handle : UInt32) (pins : List NodeId) :
    Named (s.forwardHandle sender target kind handle pins).1 := by
  unfold State.forwardHandle
  dsimp only
  split
  · exact h
  · rename_i node hnode
    split
    · exact h.pin _
    · split
      · exact h.pin _
      · exact (h.pin _).handleFor _ _ (h.nodeForHandle hnode)

theorem letGo (node : NodeId) (n : Node) : Named (s.letGo node n) := by
  have hu : Named (s.unlist node n) := by
    unfold State.unlist
    split
    · refine ⟨h.manager, h.handles, fun k m hm => ?_⟩
      rw [Map.lookup_erase_eq] at hm
      split_ifs at hm
      exact h.objects k m hm
    · exact h
  unfold State.letGo
  dsimp only
  split
  · exact hu.setNode _ _
  · exact ((hu.setNode _ _).queue _ _ _).queue _ _ _

theorem releaseIfUnreferenced (node : NodeId) : Named (s.releaseIfUnreferenced node) := by
  unfold State.releaseIfUnreferenced
  repeat' split
  all_goals first | exact h | exact h.letGo _ _

theorem logDeath (node : NodeId) (es : List DeathEvent) : Named (s.logDeath node es) := by
  unfold State.logDeath
  split
  · exact h
  · exact h.setNode _ _

theorem dropHandleIfUnheld (id : ProcId) (hd : UInt32) : Named (s.dropHandleIfUnheld id hd) := by
  unfold State.dropHandleIfUnheld
  split
  · exact h
  · split
    · exact h
    · rename_i p hp
      split
      · exact h
      · split
        · exact h
        · rename_i node _
          split
          · exact h
          · refine ((h.setProc id _ fun hd' n hn => ?_).logDeath _ _).releaseIfUnreferenced _
            simp only [ProcState.deleteHandle, Map.lookup_erase_eq] at hn
            split_ifs at hn
            refine h.handles id hd' n ?_
            rw [State.proc, hp]
            exact hn

theorem dropUnheldHandles (node : NodeId) : Named (s.dropUnheldHandles node) := by
  unfold State.dropUnheldHandles
  dsimp only
  generalize (List.filterMap _ s.procs.entries) = l
  induction l generalizing s with
  | nil => exact h
  | cons e l ih => exact ih (h.dropHandleIfUnheld e.1 e.2)

theorem unpinned (node : NodeId) : Named (s.unpinned node) := by
  unfold State.unpinned
  split
  · exact (h.dropUnheldHandles node).releaseIfUnreferenced node
  · exact h.releaseIfUnreferenced node

theorem unpinOne (node : NodeId) : Named (s.unpinOne node) := by
  have hp : ∀ pins, Named { s with pins := pins } := fun _ => ⟨h.manager, h.handles, h.objects⟩
  unfold State.unpinOne
  split
  · exact h
  · split
    · exact (hp _).unpinned node
    · exact hp _

theorem move {s' : State} (hm : Move s s') : Named s' := by
  cases hm with
  | idle hs _ => exact h.still hs
  | exportLocal => exact h.exportLocal _ _ _ _ _ _ _
  | forwardHandle => exact h.forwardHandle _ _ _ _ _
  | pin n => exact h.pin n
  | unpin n => exact h.unpinOne n
  | release n => exact h.releaseIfUnreferenced n

theorem track {s' : State} (ht : Track s s') : Named s' := by
  induction ht with
  | refl => exact h
  | tail _ hm ih =>
    rcases hm with hm | hm
    · exact ih.still hm
    · exact ih.move hm

theorem setContextMgr (id : ProcId) (flags : UInt32) : Named (s.setContextMgr id flags) := by
  obtain ⟨hl, hn⟩ := h.localNode id 0 0 flags
  unfold State.setContextMgr
  split
  · exact h
  · dsimp only
    split
    · rename_i n _
      have hset := hl.setNode (s.localNode id 0 0 flags).2 { n with held := true }
      refine ⟨fun m hm => ?_, hset.handles, hset.objects⟩
      cases hm
      exact hn.setNode
    · refine ⟨fun m hm => ?_, hl.handles, hl.objects⟩
      cases hm
      exact hn

theorem countHandle (id : ProcId) (cmd : RefCmd) (hd : UInt32) : Named (s.countHandle id cmd hd) := by
  unfold State.countHandle
  split
  · exact h
  · rename_i p hp
    have hset : ∀ counts, Named (s.setProc id { p with counts := counts }) := fun counts =>
      h.setProc id _ fun hd' n hn => h.handles id hd' n (by rw [State.proc, hp]; exact hn)
    dsimp only
    split
    · exact h
    · split
      · exact (hset _).dropHandleIfUnheld _ _
      · exact hset _

theorem acquireDone (owner : ProcId) (ptr : UInt64) (i : ℕ) : Named (s.acquireDone owner ptr i) := by
  unfold State.acquireDone
  split
  · exact h
  · dsimp only
    split
    · exact ((h.setNode _ _).queue _ _ _).queue _ _ _
    · exact h.setNode _ _

theorem deathNotification (th : Thread) (request : Bool) (handle : UInt32) (cookie : UInt64) :
    Named (s.deathNotification th request handle cookie) := by
  unfold State.deathNotification
  dsimp only
  split
  · exact h
  · split
    · exact h.queue _ _ _
    · split
      · exact (h.setNode _ _).queue _ _ _
      · exact h.setNode _ _
    · exact h.queue _ _ _
    · exact (h.setNode _ _).queue _ _ _

theorem createHostService : Named s.createHostService := by
  have ht : Named { s.touch .host with nextHostPtr := s.nextHostPtr + 1 } := by
    have := h.setProc .host (s.proc .host) fun hd n hn => h.handles .host hd n hn
    exact ⟨this.manager, this.handles, this.objects⟩
  obtain ⟨hl, -⟩ := ht.localNode .host (s.nextHostPtr + 1) (s.nextHostPtr + 1) 0
  unfold State.createHostService
  dsimp only
  split
  · exact hl
  · exact hl.setNode _ _

theorem killNode (node : NodeId) : Named (s.killNode node).1 := by
  unfold State.killNode
  split
  · exact h
  · rename_i n _
    have ht := (h.setNode node n.killed).still (tellWatchers_still _ n.watchers)
    unfold State.dropContextMgr
    split
    · exact ⟨nofun, ht.handles, ht.objects⟩
    · exact ht

theorem killNodes (l : List NodeId) : Named (s.killNodes l).1 := by
  induction l generalizing s with
  | nil => exact h
  | cons n l ih => exact ih (h.killNode n)

theorem release (id : ProcId) (o : ReleaseOrder) : Named (s.release id o) := by
  have hk := h.killNodes o.nodes
  have hf : Named ((s.killNodes o.nodes).1.forgetRelayouts id) := ⟨hk.manager, hk.handles, hk.objects⟩
  have hb : Named (s.bury id o).1 := hf.setProc id _ fun hd n hn => by cases hn
  exact hb.track (settle_track _ id o.buffers _)

end Named

theorem World.step_named (w : World) (hb : Basic w) (h : Named w.st) (a : Act) : Named (step w a).st := by
  by_cases ha : a.standing = false
  · exact h.track (step_track w hb a ha)
  cases a with
  | openFile =>
    rcases openFile_cases w with he | ⟨-, -, he⟩
    · rw [step, he]
      exact h
    · have hn : Named { w.st with nextProc := w.st.nextProc + 1 } := ⟨h.manager, h.handles, h.objects⟩
      rw [step, he]
      exact hn.setProc _ _ fun hd n hn => by cases hn
  | setContextMgr id flags =>
    simp only [step]
    split
    · exact h.setContextMgr id flags
    · exact h
  | release id o =>
    simp only [step]
    split
    · exact h.release id o
    · exact h
  | count th cmd hd =>
    simp only [step]
    split
    · exact h.countHandle th.1 cmd hd
    · exact h
  | acquireDone th ptr i =>
    simp only [step]
    split
    · exact h.acquireDone th.1 ptr i
    · exact h
  | death th request hd cookie =>
    simp only [step]
    split
    · exact h.deathNotification th request hd cookie
    · exact h
  | createHostService => exact h.createHostService
  | _ => exact absurd rfl ha

theorem reach_named {ok : World → Act → Prop} {refcount : Bool} {w : World}
    (h : Reach World.step ok (World.init refcount) w) : Named w.st := by
  refine h.invariant (fun w => Named w.st) ⟨fun _ hn => ?_, fun _ _ _ hn => ?_, fun _ _ hn => ?_⟩ fun w a hr _ hn =>
    World.step_named w (reach_basic hr) hn a
  · cases hn
  · cases hn
  · cases hn

end Omnidroid.Binder
