import Tdlib.Files.Bandwidth
import Tdlib.Files.ResourceManagerProof

/-!
# Grants are conserved

Two values go back and forth between a loader and the manager. The limit is the manager's and only
grows, and the loader's copy of it lags behind. What is used is the loader's and only grows, and the
manager's copy of that lags behind. A loader never uses more than its copy of the limit, so what the
manager believes to be active is never negative, and it becomes less with every message that
arrives.

With that no `CHECK` fails, neither in the manager nor in a loader, in whatever order messages
arrive and loaders act.
-/

namespace Tdlib.Files

open Tdlib.Lib List Function

/-! ## A loader and its node -/

/-- The states that are under way to the manager. -/
def statesOf (messages : List ToManager) : List ResourceState :=
  messages.filterMap fun
    | .updateResources s => some s
    | _ => none

/-- The limits that are under way to a loader. -/
def limitsOf (messages : List ToLoader) : List Int :=
  messages.filterMap fun
    | .updateResources s => some s.limit
    | .setResourceManager => none

/-- What holds between a loader, its node and the channels between them. -/
structure Linked (node : ResourceState) (l : Loader) (toManager : List ToManager)
    (toLoader : List ToLoader) : Prop where
  used : Lags node.used ((statesOf toManager).map fun s => s.used) l.resourceState.used
  limit : Lags l.resourceState.limit (limitsOf toLoader) node.limit
  sent : ∀ s ∈ node :: statesOf toManager, Sound l.resourceState.limit s
  sound : Sound l.resourceState.limit l.resourceState
  parts : (l.parts.sum : Int) ≤ l.resourceState.using_

namespace Linked

variable {node : ResourceState} {l l' : Loader} {toManager : List ToManager}
  {toLoader : List ToLoader}

/-- **A loader acts**: it keeps its limit, uses no less than before, and may send its state. -/
theorem act (h : Linked node l toManager toLoader) {sent : List ToManager}
    (hlimit : l'.resourceState.limit = l.resourceState.limit)
    (hused : l.resourceState.used ≤ l'.resourceState.used)
    (hsound : Sound l.resourceState.limit l'.resourceState)
    (hparts : (l'.parts.sum : Int) ≤ l'.resourceState.using_)
    (hsent : statesOf sent = [] ∨ statesOf sent = [l'.resourceState]) :
    Linked node l' (toManager ++ sent) toLoader := by
  have happend : statesOf (toManager ++ sent) = statesOf toManager ++ statesOf sent :=
    filterMap_append
  refine ⟨?_, ?_, ?_, ?_, hparts⟩
  · rw [happend, map_append]
    have hgrow := h.used.grow hused
    rcases hsent with hnone | hone
    · rw [hnone, map_nil, append_nil]
      exact hgrow
    · rw [hone]
      exact hgrow.send
  · rw [hlimit]
    exact h.limit
  · rw [hlimit, happend]
    intro s hs
    rw [← cons_append, mem_append] at hs
    rcases hs with hs | hs
    · exact h.sent s hs
    rcases hsent with hnone | hone
    · rw [hnone] at hs
      cases hs
    · rw [hone, mem_singleton] at hs
      rw [hs]
      exact hsound
  · rw [hlimit]
    exact hsound

variable {other s : ResourceState}

/-- A limit arrives at the loader. -/
theorem receiveLimit (h : Linked node l toManager (.updateResources other :: toLoader)) :
    Linked node { l with resourceState := l.resourceState.updateSlave other } toManager
      toLoader := by
  have hlimit : Lags l.resourceState.limit (other.limit :: limitsOf toLoader) node.limit := h.limit
  have hle := hlimit.received_le
  exact
    { used := h.used
      limit := hlimit.receive
      sent := fun s hs => (h.sent s hs).mono hle
      sound := { h.sound.mono hle with }
      parts := h.parts }

/-- A limit is lost, because the loader has gone away. -/
theorem loseLimit (h : Linked node l toManager (.updateResources other :: toLoader)) :
    Linked node l toManager toLoader := by
  have hlimit : Lags l.resourceState.limit (other.limit :: limitsOf toLoader) node.limit := h.limit
  exact { h with limit := hlimit.lose }

/-- **A state arrives at the manager.** -/
theorem receiveState (h : Linked node l (.updateResources s :: toManager) toLoader) :
    Linked (node.updateMaster s) l toManager toLoader := by
  have hused : Lags node.used (s.used :: (statesOf toManager).map fun s => s.used)
      l.resourceState.used := h.used
  refine ⟨hused.receive, h.limit, ?_, h.sound, h.parts⟩
  intro s' hs'
  rcases mem_cons.mp hs' with rfl | hs'
  · have hs := h.sent s (mem_cons_of_mem _ mem_cons_self)
    exact { hs with }
  · exact h.sent s' (mem_cons_of_mem _ (mem_cons_of_mem _ hs'))

/-- A state is lost, because the node is gone. -/
theorem loseState (h : Linked node l (.updateResources s :: toManager) toLoader) :
    Linked node l toManager toLoader := by
  have hused : Lags node.used (s.used :: (statesOf toManager).map fun s => s.used)
      l.resourceState.used := h.used
  refine { h with used := hused.lose, sent := ?_ }
  intro s' hs'
  rcases mem_cons.mp hs' with rfl | hs'
  · exact h.sent s' mem_cons_self
  · exact h.sent s' (mem_cons_of_mem _ (mem_cons_of_mem _ hs'))

/-- **The node gets grants**, and the loader is told. -/
theorem grant {limit : Int} {sent : List ToLoader} (h : Linked node l toManager toLoader)
    (hlags : Lags node.limit (limitsOf sent) limit) :
    Linked { node with limit := limit } l toManager (toLoader ++ sent) := by
  have happend : limitsOf (toLoader ++ sent) = limitsOf toLoader ++ limitsOf sent :=
    filterMap_append
  refine ⟨h.used, ?_, ?_, h.sound, h.parts⟩
  · rw [happend]
    exact h.limit.trans hlags
  · intro s hs
    rcases mem_cons.mp hs with rfl | hs
    · exact { h.sent node mem_cons_self with }
    · exact h.sent s (mem_cons_of_mem _ hs)

end Linked

namespace Loader

variable {l : Loader} {node : ResourceState} {toManager : List ToManager}
  {toLoader : List ToLoader}

/-- **A part is started only if the limit allows it.** -/
theorem startPart_spec (h : Linked node l toManager toLoader) {size : Nat}
    (hsize : size ≤ l.resourceState.unitSize) :
    ∃ l', l.startPart size = some l' ∧ Linked node l' toManager toLoader ∧
      l'.registered = l.registered ∧ l'.hasManager = l.hasManager := by
  unfold startPart
  split
  · exact ⟨l, rfl, h, rfl, rfl⟩
  rename_i henough
  unfold ResourceState.unused at henough
  have huse : l.resourceState.startUse size =
      some { l.resourceState with using_ := l.resourceState.using_ + size } := by
    refine if_pos ?_
    show l.resourceState.used + (l.resourceState.using_ + size) ≤ l.resourceState.limit
    omega
  rw [huse]
  refine ⟨_, rfl, ?_, rfl, rfl⟩
  have hparts := h.parts
  rw [← append_nil toManager]
  refine h.act rfl le_rfl ⟨?_, ?_, h.sound.unit_pos⟩ ?_ (.inl rfl)
  · show 0 ≤ l.resourceState.using_ + size
    omega
  · show l.resourceState.used + (l.resourceState.using_ + size) ≤ l.resourceState.limit
    omega
  · show (((l.parts ++ [size]).sum : Nat) : Int) ≤ l.resourceState.using_ + size
    rw [sum_append, sum_singleton]
    omega

theorem sum_eraseIdx {parts : List Nat} {i : Nat} (hi : i < parts.length) :
    parts.getD i 0 + (parts.eraseIdx i).sum = parts.sum := by
  rw [getD_eq_getElem?_getD, getElem?_eq_getElem hi]
  exact (getElem_cons_eraseIdx_perm hi).sum_eq

/-- **A part that comes back is in use.** -/
theorem finishPart_spec (h : Linked node l toManager toLoader) {i : Nat} (hi : i < l.parts.length) :
    ∃ l', l.finishPart i = some l' ∧ Linked node l' toManager toLoader ∧
      l'.registered = l.registered ∧ l'.hasManager = l.hasManager := by
  have hparts := h.parts
  have hle := h.sound.used_le
  have hsum := sum_eraseIdx hi
  unfold finishPart
  have hstop : l.resourceState.stopUse (l.parts.getD i 0) =
      some { l.resourceState with
        using_ := l.resourceState.using_ - (l.parts.getD i 0)
        used := l.resourceState.used + (l.parts.getD i 0) } := by
    refine if_pos ?_
    omega
  rw [hstop]
  refine ⟨_, rfl, ?_, rfl, rfl⟩
  rw [← append_nil toManager]
  refine h.act rfl ?_ ⟨?_, ?_, h.sound.unit_pos⟩ ?_ (.inl rfl)
  · show l.resourceState.used ≤ l.resourceState.used + (l.parts.getD i 0)
    omega
  · show 0 ≤ l.resourceState.using_ - (l.parts.getD i 0)
    omega
  · show l.resourceState.used + (l.parts.getD i 0) +
      (l.resourceState.using_ - (l.parts.getD i 0)) ≤ l.resourceState.limit
    omega
  · show (((l.parts.eraseIdx i).sum : Nat) : Int) ≤
      l.resourceState.using_ - (l.parts.getD i 0)
    omega

/-- A limit that is given back is not more than there is. -/
theorem updateEstimatedLimit_sound {s : ResourceState} (h : Sound s.limit s) (extra : Int) :
    (s.updateEstimatedLimit extra).1.limit = s.limit ∧
      (s.updateEstimatedLimit extra).1.using_ = s.using_ ∧
      s.used ≤ (s.updateEstimatedLimit extra).1.used ∧
      Sound s.limit (s.updateEstimatedLimit extra).1 := by
  have hnonneg := h.using_nonneg
  have hle := h.used_le
  unfold ResourceState.updateEstimatedLimit
  dsimp only
  generalize hextra : (if s.used + s.using_ + extra - min s.using_ extra < s.limit
    then s.limit - (s.used + s.using_ + extra - min s.using_ extra) else 0) = extraLimit
  have hbounds : 0 ≤ extraLimit ∧ s.used + extraLimit + s.using_ ≤ s.limit := by
    split at hextra <;> omega
  obtain ⟨hpos, hfits⟩ := hbounds
  split
  · exact ⟨rfl, rfl, le_add_of_nonneg_right hpos, ⟨hnonneg, hfits, h.unit_pos⟩⟩
  · exact ⟨rfl, rfl, Int.le_add_of_nonneg_right hpos, ⟨hnonneg, hfits, h.unit_pos⟩⟩

theorem updateEstimatedLimit_spec (h : Linked node l toManager toLoader) (extra : Int) :
    Linked node (l.updateEstimatedLimit extra).1
        (toManager ++ (l.updateEstimatedLimit extra).2) toLoader ∧
      (l.updateEstimatedLimit extra).1.registered = l.registered ∧
      (l.updateEstimatedLimit extra).1.hasManager = l.hasManager ∧
      (l.hasManager = false → (l.updateEstimatedLimit extra).2 = []) := by
  obtain ⟨hlimit, husing, hused, hsound⟩ := updateEstimatedLimit_sound h.sound extra
  unfold updateEstimatedLimit
  split
  · rw [append_nil]
    exact ⟨h, rfl, rfl, fun _ => rfl⟩
  refine ⟨h.act hlimit hused hsound ?_ ?_, rfl, rfl, ?_⟩
  · rw [husing]
    exact h.parts
  · split
    · exact .inr rfl
    · exact .inl rfl
  · intro hnone
    exact if_neg (by rw [hnone]; decide)

end Loader

/-! ## Runs -/

/-- A loader that the manager does not know. -/
structure Unknown (t : Bandwidth) (id : Nat) : Prop where
  node : t.manager.node id = {}
  nodes : id ∉ t.manager.nodes
  toManager : t.toManager id = []
  toLoader : t.toLoader id = []
  hasManager : (t.loader id).hasManager = false

/-- What holds of all loaders. -/
structure Tracked (t : Bandwidth) : Prop where
  linked : ∀ id, Linked (t.manager.node id) (t.loader id) (t.toManager id) (t.toLoader id)
  /-- A loader that is not registered has left no trace. -/
  unknown : ∀ id, (t.loader id).registered = false → Unknown t id
  uncreated : ∀ id, t.created ≤ id → (t.loader id).registered = false

/-- What holds in every state. -/
structure Conserved (t : Bandwidth) : Prop extends Tracked t where
  managed : Managed t.manager

/-- Nothing happens to a loader, but the manager may forget it. -/
structure Untouched (t t' : Bandwidth) (id : Nat) : Prop where
  node : t'.manager.node id = t.manager.node id
  nodes : id ∈ t'.manager.nodes → id ∈ t.manager.nodes
  loader : t'.loader id = t.loader id
  toManager : t'.toManager id = t.toManager id
  toLoader : t'.toLoader id = t.toLoader id

theorem limitsOf_answer (id : Nat) (sent : List (Nat × ResourceState)) :
    limitsOf ((sent.filter fun x => x.1 = id).map fun x => ToLoader.updateResources x.2) =
      limitsTo id sent := by
  unfold limitsOf limitsTo
  rw [filterMap_map]
  exact congrFun (filterMap_eq_map (f := fun x : Nat × ResourceState => x.2.limit)) _

namespace Tracked

variable {t t' : Bandwidth}

/-- **Only the loader to which something happens has to be looked at.** -/
theorem of_untouched (h : Tracked t) (id : Nat) (hothers : ∀ j, j ≠ id → Untouched t t' j)
    (hcreated : t.created ≤ t'.created)
    (hlinked : Linked (t'.manager.node id) (t'.loader id) (t'.toManager id) (t'.toLoader id))
    (hunknown : (t'.loader id).registered = false → Unknown t' id)
    (huncreated : t'.created ≤ id → (t'.loader id).registered = false) : Tracked t' where
  linked := by
    intro j
    by_cases heq : j = id
    · rw [heq]
      exact hlinked
    · have hu := hothers j heq
      rw [hu.node, hu.loader, hu.toManager, hu.toLoader]
      exact h.linked j
  unknown := by
    intro j hj
    by_cases heq : j = id
    · rw [heq] at hj ⊢
      exact hunknown hj
    · obtain ⟨hnode, hnodes, hloader, htoManager, htoLoader⟩ := hothers j heq
      rw [hloader] at hj
      have hu := h.unknown j hj
      exact ⟨hnode.trans hu.node, mt hnodes hu.nodes, htoManager.trans hu.toManager,
        htoLoader.trans hu.toLoader, by rw [hloader]; exact hu.hasManager⟩
  uncreated := by
    intro j hj
    by_cases heq : j = id
    · rw [heq] at hj ⊢
      exact huncreated hj
    · rw [(hothers j heq).loader]
      exact h.uncreated j (hcreated.trans hj)

/-- **The manager grants.** -/
theorem answer (h : Tracked t) {m' : ResourceManager} {sent : List (Nat × ResourceState)}
    (hmanaged : Managed m') (hgranted : Granted t.manager m' sent) :
    Conserved (t.answer m' sent) where
  managed := hmanaged
  linked := by
    intro id
    show Linked (m'.node id) _ _ _
    rw [hgranted.node id]
    refine (h.linked id).grant ?_
    rw [limitsOf_answer]
    exact hgranted.lags id
  unknown := by
    intro id hid
    have hu := h.unknown id hid
    obtain ⟨hnode, hnone⟩ := hgranted.outside id hu.nodes
    refine ⟨hnode.trans hu.node, ?_, hu.toManager, ?_, hu.hasManager⟩
    · show id ∉ m'.nodes
      rw [hgranted.nodes]
      exact hu.nodes
    · show t.toLoader id ++ _ = []
      rw [hu.toLoader, map_eq_nil_iff.mp hnone]
      rfl
  uncreated := h.uncreated

end Tracked

namespace Conserved

variable {t : Bandwidth} {id : Nat}

section

variable (h : Conserved t)
include h

/-- **A loader acts**, and is known to the manager if it sends something. -/
theorem act {l : Loader} {sent : List ToManager}
    (hlinked : Linked (t.manager.node id) l (t.toManager id ++ sent) (t.toLoader id))
    (hregistered : l.registered = (t.loader id).registered)
    (hsilent : l.registered = false → sent = [] ∧ l.hasManager = false) :
    Conserved (t.act id l sent) := by
  have hself : (t.act id l sent).loader id = l := update_self ..
  have hchannel : (t.act id l sent).toManager id = t.toManager id ++ sent := update_self ..
  refine ⟨h.of_untouched id (fun j hj => ⟨rfl, fun hj => hj, update_of_ne hj _ _,
    update_of_ne hj _ _, rfl⟩) le_rfl ?_ ?_ ?_, h.managed⟩
  · rw [hself, hchannel]
    exact hlinked
  · rw [hself]
    intro hnot
    have hu := h.unknown id (hregistered ▸ hnot)
    obtain ⟨hnone, hmanager⟩ := hsilent hnot
    refine ⟨hu.node, hu.nodes, ?_, hu.toLoader, by rw [hself]; exact hmanager⟩
    rw [hchannel, hu.toManager, hnone]
    rfl
  · rw [hself, hregistered]
    exact h.uncreated id

/-- A loader acts without a message. -/
theorem act_nil {l : Loader}
    (hlinked : Linked (t.manager.node id) l (t.toManager id) (t.toLoader id))
    (hregistered : l.registered = (t.loader id).registered)
    (hmanager : l.hasManager = (t.loader id).hasManager) : Conserved (t.act id l []) := by
  refine h.act (by rw [append_nil]; exact hlinked) hregistered ?_
  intro hnot
  exact ⟨rfl, hmanager.trans (h.unknown id (hregistered ▸ hnot)).hasManager⟩

/-- The oldest message is taken from the channel to the manager, which keeps what it knows of the
other loaders. -/
theorem take_message {m : ResourceManager} {message : ToManager} {messages : List ToManager}
    (hq : t.toManager id = message :: messages)
    (hnode : ∀ j, j ≠ id → m.node j = t.manager.node j)
    (hnodes : ∀ j, j ∈ m.nodes → j ∈ t.manager.nodes)
    (hlinked : Linked (m.node id) (t.loader id) messages (t.toLoader id)) :
    Tracked { t with manager := m, toManager := update t.toManager id messages } := by
  have hknown : (t.loader id).registered = true := by
    by_contra hnot
    have hu := h.unknown id (by simpa using hnot)
    rw [hu.toManager] at hq
    cases hq
  refine h.of_untouched id (fun j hj => ⟨hnode j hj, hnodes j, rfl, update_of_ne hj _ _,
    rfl⟩) le_rfl ?_ (fun hnot => ?_) (h.uncreated id)
  · dsimp only
    rw [update_self]
    exact hlinked
  · cases hknown.symm.trans hnot

theorem managerReceives (id : Nat) :
    ∃ t', t.step (.managerReceives id) = some t' ∧ Conserved t' := by
  unfold Bandwidth.step
  dsimp only
  cases hq : t.toManager id with
  | nil => exact ⟨t, rfl, h⟩
  | cons message messages =>
    have hlinked := h.linked id
    rw [hq] at hlinked
    cases message with
    | updateResources s =>
      dsimp only
      by_cases hid : id ∈ t.manager.nodes
      · -- the state replaces what the manager knew of the loader
        have hs := hlinked.sent s (mem_cons_of_mem _ mem_cons_self)
        have hused : Lags (t.manager.node id).used
          (s.used :: (statesOf messages).map fun s => s.used) _ := hlinked.used
        obtain ⟨m', sent, hm', hmanaged, hgranted⟩ :=
          ResourceManager.updateResources_spec h.managed hid (hs.mono hlinked.limit.le)
            hused.received_le
        rw [hm']
        have htracked := h.take_message hq (m := { t.manager with
            node := update t.manager.node id ((t.manager.node id).updateMaster s) })
          (fun j hj => update_of_ne hj _ _) (fun _ hj => hj)
          (by dsimp only; rw [update_self]; exact hlinked.receiveState)
        exact ⟨_, rfl, htracked.answer hmanaged hgranted⟩
      · have hm' : t.manager.updateResources id s = some (t.manager, []) := if_pos hid
        rw [hm']
        have htracked := h.take_message hq (fun _ _ => rfl) (fun _ hj => hj) hlinked.loseState
        exact ⟨_, rfl, htracked.answer h.managed (Granted.refl t.manager)⟩
    | updatePriority priority =>
      have hkeep : (t.manager.updatePriority id priority).node = t.manager.node ∧
          (t.manager.updatePriority id priority).nodes = t.manager.nodes := by
        unfold ResourceManager.updatePriority
        dsimp only
        split <;> exact ⟨rfl, rfl⟩
      have htracked := h.take_message hq (fun j _ => congrFun hkeep.1 j)
        (fun j hj => by rw [hkeep.2] at hj; exact hj)
        (show Linked _ _ messages _ by rw [hkeep.1]; exact { hlinked with })
      exact ⟨_, rfl, htracked, ResourceManager.managed_updatePriority h.managed id priority⟩
    | hangup =>
      obtain ⟨m', sent, hm', hmanaged, hgranted⟩ :=
        ResourceManager.hangupShared_spec h.managed id
      rw [hm']
      have htracked := h.take_message hq
        (m := { t.manager with nodes := t.manager.nodes.erase id }) (fun _ _ => rfl)
        (fun _ => Finset.mem_of_mem_erase) (show Linked _ _ messages _ from { hlinked with })
      exact ⟨_, rfl, htracked.answer hmanaged hgranted⟩

theorem loaderReceives (id : Nat) : ∃ t', t.step (.loaderReceives id) = some t' ∧ Conserved t' := by
  unfold Bandwidth.step
  dsimp only
  cases hq : t.toLoader id with
  | nil => exact ⟨t, rfl, h⟩
  | cons message messages =>
    have hregistered : (t.loader id).registered = true := by
      by_contra hnot
      have hu := h.unknown id (by simpa using hnot)
      rw [hu.toLoader] at hq
      cases hq
    have hlinked := h.linked id
    rw [hq] at hlinked
    -- the channel without the message, and what the loader makes of it
    have hreceived : Linked (t.manager.node id) ((t.loader id).receive message).1
        (t.toManager id ++ ((t.loader id).receive message).2) messages ∧
        ((t.loader id).receive message).1.registered = true := by
      unfold Loader.receive
      cases message with
      | setResourceManager =>
        have hrest : Linked (t.manager.node id) (t.loader id) (t.toManager id) messages :=
          { hlinked with }
        dsimp only
        split
        · exact ⟨hrest.act rfl le_rfl hrest.sound hrest.parts (.inr rfl), hregistered⟩
        · exact ⟨hrest.act rfl le_rfl hrest.sound hrest.parts (.inl rfl), hregistered⟩
      | updateResources other =>
        dsimp only
        split
        · rw [append_nil]
          exact ⟨hlinked.receiveLimit, hregistered⟩
        · rw [append_nil]
          exact ⟨hlinked.loseLimit, hregistered⟩
    refine ⟨_, rfl, h.of_untouched id (fun j hj => ⟨rfl, fun hj => hj, update_of_ne hj _ _,
      update_of_ne hj _ _, update_of_ne hj _ _⟩) le_rfl ?_ ?_ ?_, h.managed⟩
    · unfold Bandwidth.act
      dsimp only
      rw [update_self, update_self, update_self]
      exact hreceived.1
    · unfold Bandwidth.act
      dsimp only
      rw [update_self, hreceived.2]
      nofun
    · intro hid
      have := h.uncreated id hid
      rw [hregistered] at this
      cases this

/-- A loader is created. -/
theorem create {partSize : Nat} (hpos : 0 < partSize) (estimatedExtra : Int) :
    Conserved { t with
      created := t.created + 1
      loader := update t.loader t.created (.startUp partSize estimatedExtra) } := by
  have hu := h.unknown t.created (h.uncreated t.created le_rfl)
  have hsound : Sound (({} : ResourceState).setUnitSize partSize).limit
      (({} : ResourceState).setUnitSize partSize) :=
    ⟨le_rfl, le_rfl, hpos⟩
  obtain ⟨hlimit, husing, hused, hsound⟩ :=
    Loader.updateEstimatedLimit_sound hsound estimatedExtra
  have hlinked : Linked {} (Loader.startUp partSize estimatedExtra) [] [] := by
    have hlimit' : (Loader.startUp partSize estimatedExtra).resourceState.limit = 0 := hlimit
    refine ⟨(Lags.refl 0).grow hused, ?_, ?_, ?_, ?_⟩
    · rw [hlimit']
      exact Lags.refl 0
    · intro s hs
      rw [mem_singleton.mp hs, hlimit']
      exact ⟨le_rfl, le_rfl, Nat.zero_lt_one⟩
    · rw [hlimit']
      exact hsound
    · exact husing.ge
  refine ⟨h.of_untouched t.created (fun j hj => ⟨rfl, fun hj => hj, update_of_ne hj _ _,
    rfl, rfl⟩) (Nat.le_succ _) ?_ ?_ fun hid => absurd hid (Nat.not_succ_le_self _), h.managed⟩
  · dsimp only
    rw [update_self, hu.node, hu.toManager, hu.toLoader]
    exact hlinked
  · intro _
    refine ⟨hu.node, hu.nodes, hu.toManager, hu.toLoader, ?_⟩
    dsimp only
    rw [update_self]
    rfl

/-- A loader is given to the manager. -/
theorem registerWorker (hnew : (t.loader id).registered = false) (hcreated : id < t.created)
    (priority : Int) :
    Conserved { t with
      manager := t.manager.registerWorker id priority
      loader := update t.loader id { t.loader id with registered := true }
      toLoader := update t.toLoader id (t.toLoader id ++ [.setResourceManager]) } := by
  have hu := h.unknown id hnew
  have hnode : (t.manager.registerWorker id priority).node = t.manager.node := by
    show update t.manager.node id {} = t.manager.node
    rw [← hu.node]
    exact update_eq_self id t.manager.node
  refine ⟨h.of_untouched id (fun j hj => ⟨congrFun hnode j, fun hmem => ?_,
    update_of_ne hj _ _, rfl, update_of_ne hj _ _⟩) le_rfl ?_ ?_
    fun hid => absurd hid (Nat.not_le.mpr hcreated),
    ResourceManager.managed_registerWorker h.managed hu.nodes priority⟩
  · exact (Finset.mem_insert.mp hmem).resolve_left hj
  · have hlinked := h.linked id
    dsimp only
    rw [hnode, update_self, update_self]
    rw [hu.toLoader] at hlinked ⊢
    exact { hlinked with }
  · dsimp only
    rw [update_self]
    nofun

/-- **Whatever happens, no check fails and everything is kept.** -/
theorem step {event : BandwidthEvent} (hallowed : t.Allowed event) :
    ∃ t', t.step event = some t' ∧ Conserved t' := by
  cases event with
  | create partSize estimatedExtra => exact ⟨_, rfl, h.create hallowed estimatedExtra⟩
  | registerWorker id priority =>
    exact ⟨_, rfl, h.registerWorker hallowed.2 hallowed.1 priority⟩
  | managerReceives id => exact h.managerReceives id
  | loaderReceives id => exact h.loaderReceives id
  | updatePriority id priority =>
    have hlinked := h.linked id
    refine ⟨_, rfl, h.act (hlinked.act rfl le_rfl hlinked.sound hlinked.parts
      (.inl rfl)) rfl ?_⟩
    intro hnot
    have hmanager := (h.unknown id hnot).hasManager
    rw [hallowed.2] at hmanager
    cases hmanager
  | startPart id size =>
    obtain ⟨l, hl, hlinked, hregistered, hmanager⟩ :=
      Loader.startPart_spec (h.linked id) hallowed.2.2
    refine ⟨t.act id l [], ?_, h.act_nil hlinked hregistered hmanager⟩
    show ((t.loader id).startPart size).map _ = _
    rw [hl]
    rfl
  | finishPart id i =>
    obtain ⟨l, hl, hlinked, hregistered, hmanager⟩ :=
      Loader.finishPart_spec (h.linked id) hallowed.2.2
    refine ⟨t.act id l [], ?_, h.act_nil hlinked hregistered hmanager⟩
    show ((t.loader id).finishPart i).map _ = _
    rw [hl]
    rfl
  | failPart id i =>
    have hlinked := h.linked id
    refine ⟨_, rfl, h.act_nil ?_ rfl rfl⟩
    refine { hlinked with parts := ?_ }
    have hsum := Loader.sum_eraseIdx hallowed.2.2
    have hparts := hlinked.parts
    show ((((t.loader id).parts.eraseIdx i).sum : Nat) : Int) ≤ (t.loader id).resourceState.using_
    omega
  | updateEstimatedLimit id estimatedExtra =>
    obtain ⟨hlinked, hregistered, hmanager, hsilent⟩ :=
      Loader.updateEstimatedLimit_spec (h.linked id) estimatedExtra
    refine ⟨_, rfl, h.act hlinked hregistered ?_⟩
    intro hnot
    have hnone := (h.unknown id (hregistered ▸ hnot)).hasManager
    exact ⟨hsilent hnone, hmanager.trans hnone⟩
  | disconnect id =>
    have hlinked := h.linked id
    refine ⟨_, rfl, h.act (hlinked.act rfl (Int.le_rfl) hlinked.sound hlinked.parts
      (.inl ?_)) rfl ?_⟩
    · split <;> rfl
    · intro hnot
      have hnone := (h.unknown id hnot).hasManager
      exact ⟨if_neg (by rw [hnone]; decide), rfl⟩

end

theorem init (mode : Mode) : Conserved { manager := { mode } } where
  managed :=
    { using_eq := rfl
      used_eq := rfl
      using_le := (by decide : 0 ≤ maxResourceLimit)
      sound := fun _ hid => absurd hid (Finset.notMem_empty _)
      xload_nodup := nodup_nil
      xload_mem := forall_mem_nil _
      heap_mem := forall_mem_nil _ }
  linked := by
    intro id
    have hsound : Sound 0 {} := ⟨le_rfl, le_rfl, Nat.zero_lt_one⟩
    refine ⟨Lags.refl 0, Lags.refl 0, ?_, hsound, le_rfl⟩
    intro s hs
    rw [mem_singleton.mp hs]
    exact hsound
  unknown := fun _ _ => ⟨rfl, Finset.notMem_empty _, rfl, rfl, rfl⟩
  uncreated := fun _ _ => rfl

theorem run {mode : Mode} (h : Bandwidth.Run mode t) : Conserved t := by
  induction h with
  | init => exact init mode
  | step event h hallowed hstep ih =>
    obtain ⟨t', ht', hconserved⟩ := ih.step hallowed
    rw [hstep] at ht'
    cases ht'
    exact hconserved

end Conserved

/-- **Grants are conserved.** In every state what is active of all nodes is at most what there is,
the manager has added up what is active and used, and nothing that can happen next fails a check. -/
theorem grants_conserved {mode : Mode} {t : Bandwidth} (h : Bandwidth.Run mode t) :
    ∑ id ∈ t.manager.nodes, (t.manager.node id).activeLimit ≤ maxResourceLimit ∧
    t.manager.resourceState.using_ = ∑ id ∈ t.manager.nodes, (t.manager.node id).activeLimit ∧
    t.manager.resourceState.used = ∑ id ∈ t.manager.nodes, (t.manager.node id).used ∧
    ∀ event, t.Allowed event → ∃ t', t.step event = some t' := by
  have hconserved := Conserved.run h
  refine ⟨?_, hconserved.managed.using_eq, hconserved.managed.used_eq, ?_⟩
  · rw [← hconserved.managed.using_eq]
    exact hconserved.managed.using_le
  · intro event hallowed
    obtain ⟨t', ht', -⟩ := hconserved.step hallowed
    exact ⟨t', ht'⟩

/-- A loader that wants two parts gets them. -/
theorem grants_conserved_two_parts :
    ∃ t, Bandwidth.Run .baseline t ∧ t.manager.nodes = {0} ∧
      t.manager.resourceState.using_ = 0x10000 ∧
      ∑ id ∈ t.manager.nodes, (t.manager.node id).activeLimit ≤ maxResourceLimit := by
  have hrun1 := Bandwidth.Run.step (.create 0x8000 0x10000)
    (Bandwidth.Run.init : Bandwidth.Run .baseline _) (by decide : 0 < 0x8000) rfl
  have hrun2 := Bandwidth.Run.step (.registerWorker 0 1) hrun1 ⟨Nat.zero_lt_one, rfl⟩ rfl
  have hrun3 := Bandwidth.Run.step (.loaderReceives 0) hrun2 trivial rfl
  have hrun4 := Bandwidth.Run.step (.managerReceives 0) hrun3 trivial rfl
  exact ⟨_, hrun4, rfl, rfl, (grants_conserved hrun4).1⟩

end Tdlib.Files
