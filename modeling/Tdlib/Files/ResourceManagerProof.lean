import Tdlib.Lib.Lags
import Tdlib.Files.ResourceManager

/-!
# The manager never grants more than there is

What is active of all nodes adds up to at most `maxResourceLimit`, and what the manager has added up
is that sum. This is kept by every message that arrives, if the loaders keep to their limits and
what they used never becomes less. A grant only raises the limit of a node, and its loader is told
every new limit.
-/

namespace Tdlib.Files

open Tdlib.Lib List Function ResourceState

/-- One value in a family changes, and with it the sum over the family. -/
theorem sum_update {ι β : Type} [DecidableEq ι] {s : Finset ι} {i : ι} (hi : i ∈ s) (f : ι → β)
    (x : β) (g : β → Int) :
    ∑ j ∈ s, g (update f i x j) = ∑ j ∈ s, g (f j) - g (f i) + g x := by
  rw [← Finset.add_sum_erase s _ hi, ← Finset.add_sum_erase s (fun j => g (f j)) hi, update_self]
  have hrest : ∑ j ∈ s.erase i, g (update f i x j) = ∑ j ∈ s.erase i, g (f j) := by
    refine Finset.sum_congr rfl ?_
    intro j hj
    rw [update_of_ne (Finset.ne_of_mem_erase hj)]
  omega

/-- A state that keeps to a limit. -/
structure Sound (limit : Int) (s : ResourceState) : Prop where
  using_nonneg : 0 ≤ s.using_
  used_le : s.used + s.using_ ≤ limit
  unit_pos : 0 < s.unitSize

theorem Sound.mono {limit limit' : Int} {s : ResourceState} (h : Sound limit s)
    (hle : limit ≤ limit') : Sound limit' s :=
  ⟨h.using_nonneg, h.used_le.trans hle, h.unit_pos⟩

/-- What holds of the manager. -/
structure Managed (m : ResourceManager) : Prop where
  /-- The totals are the sums over the loaders. -/
  using_eq : m.resourceState.using_ = ∑ id ∈ m.nodes, (m.node id).activeLimit
  used_eq : m.resourceState.used = ∑ id ∈ m.nodes, (m.node id).used
  using_le : m.resourceState.using_ ≤ maxResourceLimit
  sound : ∀ id ∈ m.nodes, Sound (m.node id).limit (m.node id)
  /-- No loader waits twice. -/
  xload_nodup : (m.toXload.map Prod.snd).Nodup
  xload_mem : ∀ id ∈ m.toXload.map Prod.snd, id ∈ m.nodes
  heap_mem : ∀ x ∈ m.byEstimatedExtra, x.2 ∈ m.nodes

/-- The limits that are sent to a loader. -/
def limitsTo (id : Nat) (sent : List (Nat × ResourceState)) : List Int :=
  (sent.filter fun x => x.1 = id).map fun x => x.2.limit

/-- What grants do: limits grow, and the loaders are told. -/
structure Granted (m m' : ResourceManager) (sent : List (Nat × ResourceState)) : Prop where
  nodes : m'.nodes = m.nodes
  node : ∀ id, m'.node id = { m.node id with limit := (m'.node id).limit }
  /-- Each loader is told its limits in the order they grow. -/
  lags : ∀ id, Lags (m.node id).limit (limitsTo id sent) (m'.node id).limit
  outside : ∀ id ∉ m.nodes, m'.node id = m.node id ∧ limitsTo id sent = []

namespace Granted

variable {m m' m'' : ResourceManager} {sent sent' : List (Nat × ResourceState)}

theorem refl (m : ResourceManager) : Granted m m [] :=
  ⟨rfl, fun _ => rfl, fun id => Lags.refl (m.node id).limit, fun _ _ => ⟨rfl, rfl⟩⟩

theorem trans (h : Granted m m' sent) (h' : Granted m' m'' sent') :
    Granted m m'' (sent ++ sent') where
  nodes := h'.nodes.trans h.nodes
  node := by
    intro id
    rw [h'.node id, h.node id]
  lags := by
    intro id
    unfold limitsTo
    rw [filter_append, map_append]
    exact (h.lags id).trans (h'.lags id)
  outside := by
    intro id hid
    obtain ⟨hnode, hnone⟩ := h.outside id hid
    obtain ⟨hnode', hnone'⟩ := h'.outside id (by rw [h.nodes]; exact hid)
    refine ⟨hnode'.trans hnode, ?_⟩
    unfold limitsTo at *
    rw [filter_append, map_append, hnone, hnone']
    rfl

/-- What the manager keeps for itself does not matter. -/
theorem of_eq {m0 : ResourceManager} (h : Granted m m' sent) (hnodes : m.nodes = m0.nodes)
    (hnode : m.node = m0.node) : Granted m0 m' sent where
  nodes := h.nodes.trans hnodes
  node := hnode ▸ h.node
  lags := hnode ▸ h.lags
  outside := by
    rw [← hnodes, ← hnode]
    exact h.outside

end Granted

namespace ResourceManager

variable {m : ResourceManager} {id : Nat}

/-- What is wanted is at least what the limit leaves. -/
theorem estimatedExtra_nonneg {s : ResourceState} (hpos : 0 < s.unitSize) :
    0 ≤ s.estimatedExtra := by
  unfold estimatedExtra
  dsimp only
  have hunit : (0 : Int) < s.unitSize := by omega
  have hgt := Int.lt_ediv_add_one_mul_self
    (max s.limit s.estimatedLimit - s.using_ - s.used + s.unitSize - 1) hunit
  rw [add_mul, Int.one_mul] at hgt
  have hmax := le_max_left s.limit s.estimatedLimit
  omega

/-- A number is rounded down to whole parts. -/
theorem sub_tmod (give partSize : Int) (hgive : 0 ≤ give) (hpos : 0 < partSize) :
    0 ≤ give - give.tmod partSize ∧ give - give.tmod partSize ≤ give := by
  have hnonneg : 0 ≤ give.tmod partSize := Int.tmod_nonneg partSize hgive
  have hquot : 0 ≤ partSize * give.tdiv partSize :=
    Int.mul_nonneg hpos.le (Int.tdiv_nonneg hgive hpos.le)
  have hdiv := Int.mul_tdiv_add_tmod give partSize
  omega

/-- The state in which the loop grants: the limit is what was used and what may be active. -/
structure Open (m : ResourceManager) : Prop where
  managed : Managed m
  limit_eq : m.resourceState.limit = m.resourceState.used + maxResourceLimit

/-- **A grant fails no check**, and keeps the sums. -/
theorem satisfyNode_spec (h : Open m) (hid : id ∈ m.nodes) :
    ∃ m' sent more, m.satisfyNode id = some (m', sent, more) ∧ Open m' ∧ Granted m m' sent := by
  have hpos := (h.managed.sound id hid).unit_pos
  have hunit : (0 : Int) < (m.node id).unitSize := by omega
  have hextra := estimatedExtra_nonneg hpos
  unfold satisfyNode
  rw [if_neg (not_not.mpr hid)]
  dsimp only
  split
  · exact ⟨m, [], true, rfl, h, Granted.refl m⟩
  -- Whole units are given, and not more than the manager has left.
  generalize hneed : ((m.node id).estimatedExtra + (m.node id).unitSize - 1).tdiv
    (m.node id).unitSize * ((m.node id).unitSize : Int) = need
  have hneed : 0 ≤ need := by
    rw [← hneed]
    exact Int.mul_nonneg (Int.tdiv_nonneg (by omega) hunit.le) hunit.le
  have hunused : m.resourceState.unused = maxResourceLimit - m.resourceState.using_ := by
    unfold unused
    rw [h.limit_eq]
    omega
  have hle := h.managed.using_le
  obtain ⟨hnonneg, hgive⟩ := sub_tmod (min need m.resourceState.unused) _ (by omega) hunit
  generalize hg : min need m.resourceState.unused -
    (min need m.resourceState.unused).tmod (m.node id).unitSize = give at hnonneg
  split
  · exact ⟨m, [], false, rfl, h, Granted.refl m⟩
  have huse : m.resourceState.startUse give =
      some { m.resourceState with using_ := m.resourceState.using_ + give } := by
    refine if_pos ?_
    show m.resourceState.used + (m.resourceState.using_ + give) ≤ m.resourceState.limit
    rw [h.limit_eq]
    omega
  rw [huse]
  refine ⟨_, _, _, rfl, ⟨?_, h.limit_eq⟩, ?_⟩
  · refine { h.managed with using_eq := ?_, used_eq := ?_, using_le := ?_, sound := ?_ }
    · rw [sum_update hid m.node _ activeLimit, ← h.managed.using_eq]
      unfold activeLimit updateLimit
      dsimp only
      omega
    · rw [sum_update hid m.node _ used, ← h.managed.used_eq]
      unfold updateLimit
      dsimp only
      omega
    · show m.resourceState.using_ + give ≤ maxResourceLimit
      omega
    · intro j hj
      dsimp only
      by_cases heq : j = id
      · rw [heq, update_self]
        have hs := h.managed.sound id hid
        exact { hs.mono (show (m.node id).limit ≤ (m.node id).limit + give by omega) with }
      · rw [update_of_ne heq]
        exact h.managed.sound j hj
  refine ⟨rfl, ?_, ?_, ?_⟩
  · intro j
    dsimp only
    by_cases heq : j = id
    · rw [heq, update_self]
      rfl
    · rw [update_of_ne heq]
  · intro j
    dsimp only [limitsTo]
    by_cases heq : j = id
    · rw [heq, update_self, filter_cons_of_pos (by simp)]
      exact Lags.step (show (m.node id).limit ≤ (m.node id).limit + give by omega)
    · rw [update_of_ne heq, filter_cons_of_neg (by simpa using Ne.symm heq)]
      exact Lags.refl _
  · intro j hj
    have heq : j ≠ id := by
      rintro rfl
      exact hj hid
    dsimp only [limitsTo]
    rw [update_of_ne heq, filter_cons_of_neg (by simpa using Ne.symm heq)]
    exact ⟨rfl, rfl⟩

/-- Grants to several nodes, one after the other. -/
theorem satisfyNodes_spec (h : Open m) (ids : List Nat) (hids : ∀ id ∈ ids, id ∈ m.nodes) :
    ∃ m' sent n, satisfyNodes ids m = some (m', sent, n) ∧ Open m' ∧ Granted m m' sent := by
  induction ids generalizing m with
  | nil => exact ⟨m, [], 0, rfl, h, Granted.refl m⟩
  | cons id ids ih =>
    obtain ⟨m1, sent1, more, hfirst, hopen, hgranted⟩ := satisfyNode_spec h (hids id mem_cons_self)
    unfold satisfyNodes
    rw [hfirst, Option.bind_some]
    dsimp only
    split
    · obtain ⟨m2, sent2, n, hrest, hopen', hgranted'⟩ := ih hopen (by
        intro j hj
        rw [hgranted.nodes]
        exact hids j (mem_cons_of_mem _ hj))
      rw [hrest]
      exact ⟨m2, sent1 ++ sent2, n + 1, rfl, hopen', hgranted.trans hgranted'⟩
    · exact ⟨m1, sent1, 1, rfl, hopen, hgranted⟩

variable {l : List (Int × Nat)}

theorem mem_insertByKey {x y : Int × Nat} (h : y ∈ insertByKey x l) : y = x ∨ y ∈ l := by
  induction l with
  | nil => exact .inl (mem_singleton.mp h)
  | cons z l ih =>
    unfold insertByKey at h
    split at h
    · exact mem_cons.mp h
    · rcases mem_cons.mp h with rfl | h
      · exact .inr mem_cons_self
      · exact (ih h).imp_right (mem_cons_of_mem _)

/-- Only the heap changes. -/
theorem managed_addToHeap (h : Managed m) (hid : id ∈ m.nodes) : Managed (m.addToHeap id) := by
  refine { h with heap_mem := ?_ }
  intro x hx
  unfold addToHeap at hx
  dsimp only at hx
  split at hx
  · rcases mem_insertByKey hx with rfl | hx
    · exact hid
    · exact h.heap_mem x (mem_filter.mp hx).1
  · exact h.heap_mem x (mem_filter.mp hx).1

theorem managed_foldl_addToHeap (h : Managed m) (hl : ∀ x ∈ l, x.2 ∈ m.nodes) :
    Managed (l.foldl (fun m x => m.addToHeap x.2) m) ∧
      (l.foldl (fun m x => m.addToHeap x.2) m).nodes = m.nodes ∧
      (l.foldl (fun m x => m.addToHeap x.2) m).node = m.node := by
  induction l generalizing m with
  | nil => exact ⟨h, rfl, rfl⟩
  | cons x l ih =>
    exact ih (managed_addToHeap h (hl x mem_cons_self))
      (forall_mem_cons.1 hl).2

/-- **The loop fails no check**, keeps the sums and tells the loaders what it grants. -/
theorem loop_spec (h : Managed m) :
    ∃ m' sent, m.loop = some (m', sent) ∧ Managed m' ∧ Granted m m' sent := by
  have hopen : Open { m with
      resourceState :=
        m.resourceState.updateLimit (maxResourceLimit - m.resourceState.activeLimit) } := by
    refine ⟨{ h with }, ?_⟩
    unfold updateLimit activeLimit
    dsimp only
    omega
  unfold loop
  dsimp only
  split
  · obtain ⟨m', sent, n, hnodes, hopen', hgranted⟩ :=
      satisfyNodes_spec hopen (m.byEstimatedExtra.map Prod.snd) (by
        intro id hid
        obtain ⟨x, hx, rfl⟩ := mem_map.mp hid
        exact h.heap_mem x hx)
    rw [hnodes]
    have hnodes' : m'.nodes = m.nodes := hgranted.nodes
    have hmanaged : Managed { m' with byEstimatedExtra := m.byEstimatedExtra.drop n } := by
      refine { hopen'.managed with heap_mem := ?_ }
      intro x hx
      rw [hnodes']
      exact h.heap_mem x (mem_of_mem_drop hx)
    obtain ⟨hmanaged', hkeep, hnode⟩ :=
      managed_foldl_addToHeap (l := m.byEstimatedExtra.take n) hmanaged (by
        intro x hx
        rw [hnodes']
        exact h.heap_mem x (mem_of_mem_take hx))
    refine ⟨_, sent, rfl, hmanaged', ⟨hkeep.trans hnodes', ?_, ?_, ?_⟩⟩
    · rw [hnode]
      exact hgranted.node
    · rw [hnode]
      exact hgranted.lags
    · rw [hnode]
      exact hgranted.outside
  · obtain ⟨m', sent, n, hnodes, hopen', hgranted⟩ :=
      satisfyNodes_spec hopen (m.toXload.map Prod.snd) h.xload_mem
    rw [hnodes]
    exact ⟨m', sent, rfl, hopen'.managed, hgranted.of_eq rfl rfl⟩

/-- A state of a loader arrives, in which no less is used than the manager knew. -/
theorem updateResources_spec (h : Managed m) (hid : id ∈ m.nodes) {s : ResourceState}
    (hsound : Sound (m.node id).limit s) (hused : (m.node id).used ≤ s.used) :
    ∃ m' sent, m.updateResources id s = some (m', sent) ∧ Managed m' ∧
      Granted { m with node := update m.node id ((m.node id).updateMaster s) } m' sent := by
  have hmanaged : Managed { m with
      node := update m.node id ((m.node id).updateMaster s)
      resourceState :=
        (m.resourceState.sub (m.node id)).add ((m.node id).updateMaster s) } := by
    refine { h with using_eq := ?_, used_eq := ?_, using_le := ?_, sound := ?_ }
    · rw [sum_update hid m.node _ activeLimit, ← h.using_eq]
      rfl
    · rw [sum_update hid m.node _ used, ← h.used_eq]
      rfl
    · have hle := h.using_le
      unfold add sub activeLimit updateMaster
      dsimp only
      omega
    · intro j hj
      dsimp only
      by_cases heq : j = id
      · rw [heq, update_self]
        exact { hsound with }
      · rw [update_of_ne heq]
        exact h.sound j hj
  unfold updateResources
  rw [if_neg (not_not.mpr hid)]
  dsimp only
  split
  · obtain ⟨m', sent, hloop, hm', hgranted⟩ := loop_spec (managed_addToHeap hmanaged hid)
    exact ⟨m', sent, hloop, hm', hgranted.of_eq rfl rfl⟩
  · obtain ⟨m', sent, hloop, hm', hgranted⟩ := loop_spec hmanaged
    exact ⟨m', sent, hloop, hm', hgranted.of_eq rfl rfl⟩

/-- A node is taken from the list. -/
theorem mem_eraseP (hnodup : (l.map Prod.snd).Nodup) {x : Int × Nat}
    (hx : x ∈ l.eraseP fun x => x.2 = id) : x ∈ l ∧ x.2 ≠ id := by
  induction l with
  | nil => cases hx
  | cons y l ih =>
    rw [map_cons, nodup_cons] at hnodup
    by_cases hy : y.2 = id
    · rw [eraseP_cons_of_pos (by simpa using hy)] at hx
      refine ⟨mem_cons_of_mem _ hx, ?_⟩
      intro heq
      exact hnodup.1 (mem_map.mpr ⟨x, hx, heq.trans hy.symm⟩)
    · rw [eraseP_cons_of_neg (by simpa using hy)] at hx
      rcases mem_cons.mp hx with rfl | hx
      · exact ⟨mem_cons_self, hy⟩
      · obtain ⟨hmem, hne⟩ := ih hnodup.2 hx
        exact ⟨mem_cons_of_mem _ hmem, hne⟩

theorem managed_removeNode (h : Managed m) (id : Nat) :
    Managed (m.removeNode id).1 ∧ id ∉ (m.removeNode id).1.toXload.map Prod.snd := by
  refine ⟨{ h with xload_nodup := ?_, xload_mem := ?_ }, ?_⟩
  · exact h.xload_nodup.sublist (eraseP_sublist.map _)
  · intro j hj
    obtain ⟨x, hx, rfl⟩ := mem_map.mp hj
    exact h.xload_mem x.2 (mem_map_of_mem (mem_eraseP h.xload_nodup hx).1)
  · intro hmem
    obtain ⟨x, hx, heq⟩ := mem_map.mp hmem
    exact (mem_eraseP h.xload_nodup hx).2 heq

theorem managed_addNode (h : Managed m) (hid : id ∈ m.nodes)
    (hnew : id ∉ m.toXload.map Prod.snd) (priority : Int) : Managed (m.addNode id priority) := by
  have hperm : ((m.addNode id priority).toXload.map Prod.snd).Perm
      (id :: m.toXload.map Prod.snd) := by
    unfold addNode
    rw [map_append]
    refine perm_middle.trans (List.Perm.cons id ?_)
    rw [← map_append, takeWhile_append_dropWhile]
  refine { h with xload_nodup := ?_, xload_mem := ?_ }
  · rw [hperm.nodup_iff, nodup_cons]
    exact ⟨hnew, h.xload_nodup⟩
  · intro j hj
    rcases mem_cons.mp (hperm.mem_iff.mp hj) with rfl | hj
    · exact hid
    · exact h.xload_mem j hj

/-- A node keeps its place among the nodes when its priority changes. -/
theorem managed_updatePriority (h : Managed m) (id : Nat) (priority : Int) :
    Managed (m.updatePriority id priority) := by
  obtain ⟨hremoved, hnot⟩ := managed_removeNode h id
  unfold updatePriority
  dsimp only
  split
  · rename_i hany
    refine managed_addNode hremoved ?_ hnot priority
    obtain ⟨x, hx, heq⟩ := any_eq_true.mp hany
    exact h.xload_mem id (mem_map.mpr ⟨x, hx, by simpa using heq⟩)
  · exact hremoved

theorem managed_registerWorker (h : Managed m) (hid : id ∉ m.nodes) (priority : Int) :
    Managed (m.registerWorker id priority) := by
  have hother : ∀ j ∈ m.nodes, update m.node id {} j = m.node j := by
    intro j hj
    rw [update_of_ne]
    rintro rfl
    exact hid hj
  refine managed_addNode (m := { m with
    nodes := insert id m.nodes
    node := update m.node id {} }) ?_ (Finset.mem_insert_self _ _)
    (fun hmem => hid (h.xload_mem id hmem)) priority
  refine { h with using_eq := ?_, used_eq := ?_, sound := ?_, xload_mem := ?_, heap_mem := ?_ }
  · dsimp only
    rw [Finset.sum_insert hid, h.using_eq, update_self,
      Finset.sum_congr rfl fun j hj => congrArg activeLimit (hother j hj)]
    exact (zero_add _).symm
  · dsimp only
    rw [Finset.sum_insert hid, h.used_eq, update_self,
      Finset.sum_congr rfl fun j hj => congrArg used (hother j hj)]
    exact (zero_add _).symm
  · intro j hj
    dsimp only
    rcases Finset.mem_insert.mp hj with rfl | hj
    · rw [update_self]
      exact ⟨Int.le_refl 0, Int.le_refl 0, Nat.zero_lt_one⟩
    · rw [hother j hj]
      exact h.sound j hj
  · intro j hj
    exact Finset.mem_insert_of_mem (h.xload_mem j hj)
  · intro x hx
    exact Finset.mem_insert_of_mem (h.heap_mem x hx)

/-- A loader has gone away. What it had is granted to others. -/
theorem hangupShared_spec (h : Managed m) (id : Nat) :
    ∃ m' sent, m.hangupShared id = some (m', sent) ∧ Managed m' ∧
      Granted { m with nodes := m.nodes.erase id } m' sent := by
  unfold hangupShared
  by_cases hid : id ∈ m.nodes
  swap
  · rw [if_pos hid]
    exact ⟨m, [], rfl, h, (Granted.refl m).of_eq (Finset.erase_eq_of_notMem hid).symm rfl⟩
  rw [if_neg (not_not.mpr hid)]
  obtain ⟨hremoved, hnot⟩ := managed_removeNode h id
  have hmanaged : Managed { m with
      nodes := m.nodes.erase id
      toXload := m.toXload.eraseP fun x => x.2 = id
      byEstimatedExtra := m.byEstimatedExtra.filter fun x => x.2 ≠ id
      resourceState := m.resourceState.sub (m.node id) } := by
    refine { hremoved with
      using_eq := ?_, used_eq := ?_, using_le := ?_, sound := ?_, xload_mem := ?_, heap_mem := ?_ }
    · have hsum := Finset.add_sum_erase m.nodes (fun j => (m.node j).activeLimit) hid
      have := h.using_eq
      show m.resourceState.using_ - (m.node id).activeLimit = _
      dsimp only
      omega
    · have hsum := Finset.add_sum_erase m.nodes (fun j => (m.node j).used) hid
      have := h.used_eq
      show m.resourceState.used - (m.node id).used = _
      dsimp only
      omega
    · -- the node had nothing negative
      have hsound := h.sound id hid
      have := hsound.using_nonneg
      have := hsound.used_le
      have := h.using_le
      unfold sub activeLimit
      dsimp only
      omega
    · intro j hj
      exact h.sound j (Finset.mem_of_mem_erase hj)
    · intro j hj
      refine Finset.mem_erase.mpr ⟨?_, hremoved.xload_mem j hj⟩
      rintro rfl
      exact hnot hj
    · intro x hx
      obtain ⟨hmem, hne⟩ := mem_filter.mp hx
      exact Finset.mem_erase.mpr ⟨by simpa using hne, h.heap_mem x hmem⟩
  obtain ⟨m', sent, hloop, hm', hgranted⟩ := loop_spec hmanaged
  exact ⟨m', sent, hloop, hm', hgranted.of_eq rfl rfl⟩

end ResourceManager

end Tdlib.Files
