import FerricStore.MemoryRuns

/-!
# Histories of batches of the memory store

Batches start, run and stop anywhere in any order, except that two batches that put a
common item do not overlap. In every state of such a history the catalogs cover the items.
-/

set_option autoImplicit false

namespace FerricStore.MemoryStore
open Text OrderedKeys StorageKeys CommandPlans KeyedDatabase

variable {T : Type} {σ : Storage T} {U : Set (List Str)} {scanner : Scanner Str Bytes Str}
  {K : Set (Place U)} {x : Place U} {v : ItemView}

section Plans

theorem writePending_safe (hσ : Lawful σ) (hU : CollisionFree σ U) {pending : List (PendingPut T)}
    (hpending : ∀ item ∈ pending, ∃ y ∈ K, item.op.path = y.path)
    (hkeys : ∀ item ∈ pending, textKeys item.op.value = true) (hv : σ.Covered U x v) :
    Safe (σ.guarding U scanner) K x (σ.Covered U x) (fun _ w => σ.Covered U x w)
      (σ.writePending pending) v := by
  have hreading : Reading (fun _ => True) (σ.readCreated pending) := by
    refine Asks.bind (Asks.lift _) fun reads hreads => ?_
    refine Asks.bind (Asks.batch (itemCommands_read hreads)) fun responses _ => ?_
    refine Asks.bind (Asks.lift _) fun responses _ => ?_
    exact fun _ _ => trivial
  refine Safe.bind (P := fun _ w => σ.Covered U x w)
    (hreading.safe hv (fun _ _ => hv) fun _ => hv) ?_ fun _ _ hw _ => hw
  intro created w hw _
  refine Safe.lift hw (fun indexes hindexes => ?_) fun _ _ => hw
  refine Safe.bind (publish_safe hpending hindexes hw) ?_ fun _ _ hu _ => hu
  intro _ u hu hpublished
  refine Safe.lift hu (fun records hrecords => ?_) fun _ _ => hu
  refine Safe.bind (writeItems_safe hσ hU hpending hkeys hrecords hu hpublished.2) ?_
    fun _ _ hz _ => hz
  exact fun _ z hz _ => Safe.finish hz hz

theorem mem_pendingPuts {clock : ℕ → T} {ops : List PutOp} {item : PendingPut T}
    (h : item ∈ pendingPuts clock ops) : item.op ∈ ops ∧ item.op.value.isNone = false := by
  obtain ⟨i, hi, rfl⟩ := List.mem_mapIdx.mp h
  have hmem := List.mem_filter.mp (List.getElem_mem hi)
  exact ⟨hmem.1, by simpa using hmem.2⟩

theorem mem_removals {ops : List PutOp} {op : PutOp} (h : op ∈ removals ops) : op ∈ ops :=
  (List.mem_filter.mp h).1

theorem applyPuts_safe (hσ : Lawful σ) (hU : CollisionFree σ U) (clock : ℕ → T) {ops : List PutOp}
    (hops : ∀ op ∈ ops, ∃ y ∈ K, op.path = y.path) (hv : σ.Covered U x v) :
    Safe (σ.guarding U scanner) K x (σ.Covered U x) (fun _ w => σ.Covered U x w)
      (σ.applyPuts clock ops) v := by
  unfold Storage.applyPuts
  by_cases hempty : ops.isEmpty = true
  · rw [if_pos hempty]
    exact Safe.finish hv hv
  rw [if_neg hempty]
  have hremovals : ∀ op ∈ removals ops, ∃ y ∈ K, op.path = y.path :=
    fun op hop => hops op (mem_removals hop)
  refine Safe.lift hv (fun _ hvalid => ?_) fun _ _ => hv
  refine Safe.lift hv (fun items hitems => ?_) fun _ _ => hv
  refine Safe.bind (deleteItems_safe hU hremovals hitems hv) ?_ fun _ _ hw _ => hw
  intro _ w hw hgone
  refine Safe.lift hw (fun indexes hindexes => ?_) fun _ _ => hw
  refine Safe.bind (deleteIndexes_safe hremovals hindexes hw hgone.2) ?_ fun _ _ hu _ => hu
  intro _ u hu _
  split_ifs
  · exact Safe.finish hu hu
  · refine writePending_safe hσ hU (fun item hitem => hops _ (mem_pendingPuts hitem).1) ?_ hu
    intro item hitem
    have hput := mem_pendingPuts hitem
    have hvalue := (validatePut_ok (validatePuts_ok hvalid item.op hput.1)).2.2
    rcases hvalue with hnone | hkeys
    · rw [hput.2] at hnone
      cases hnone
    · exact hkeys

/-- A batch, the fuel of its loops and the times that it reads. -/
structure BatchRun (T : Type) where
  ops : List Op
  fuel : ℕ
  clock : ℕ → T

/-- The items that a batch puts. -/
def BatchRun.locks (U : Set (List Str)) (o : BatchRun T) : Set (Place U) :=
  { x | ∃ op ∈ putsOf o.ops, op.path = x.path }

def Storage.batchPlan (σ : Storage T) (o : BatchRun T) : StorePlan (List (Result T)) :=
  σ.lockedBatch o.fuel o.clock o.ops

theorem batchPlan_safe (hσ : Lawful σ) (hU : CollisionFree σ U) (o : BatchRun T)
    (hused : ∀ op ∈ putsOf o.ops, op.namespace_ ∈ U) (hv : σ.Covered U x v) :
    Safe (σ.guarding U scanner) (o.locks U) x (σ.Covered U x) (fun _ w => σ.Covered U x w)
      (σ.batchPlan o) v := by
  unfold Storage.batchPlan Storage.lockedBatch
  refine Safe.lift hv (fun keys hkeys => ?_) fun _ _ => hv
  have hplaces : ∀ op ∈ putsOf o.ops, ∃ y ∈ o.locks U, op.path = y.path := by
    intro op hop
    obtain ⟨hvalid, hns, hkey⟩ := mutationLockKeys_ok hkeys op hop
    exact ⟨placeOf op (hused op hop) hvalid hns hkey, ⟨op, hop, rfl⟩, rfl⟩
  have hgather := gather_reading (σ := σ) o.fuel 0 o.ops
    ⟨List.replicate o.ops.length .nothing, [], []⟩ fun c hc => absurd hc List.not_mem_nil
  refine Safe.bind (P := fun r w => σ.Covered U x w ∧ ∀ g : Gathered T, r = .ok g →
      g.puts = lastPuts [] (putsOf o.ops) ∧ ∀ c ∈ g.gets, c.2.reads = true)
    (hgather.safe hv (fun g hg => ⟨hv, fun g' hg' => Except.ok.inj hg' ▸ hg⟩)
      fun e => ⟨hv, fun g hg => nomatch hg⟩) ?_ fun _ _ hw _ => hw
  intro g w hw hg
  obtain ⟨hputs, hgets⟩ := hg.2 g rfl
  refine Safe.bind (P := fun _ w => σ.Covered U x w)
    ((readGets_reading g hgets).safe hw (fun _ _ => hw) fun _ => hw) ?_ fun _ _ hu _ => hu
  intro results u hu _
  refine Safe.bind (applyPuts_safe hσ hU o.clock (fun op hop => ?_) hu) ?_ fun _ _ hz _ => hz
  · rw [hputs] at hop
    rcases mem_lastPuts hop with hop | hop
    · exact absurd hop List.not_mem_nil
    · exact hplaces op hop
  · exact fun _ z hz _ => Safe.finish hz hz

/-- A batch without puts reads only. -/
theorem batchPlan_reading (o : BatchRun T) (h : putsOf o.ops = []) :
    Reading (fun _ => True) (σ.batchPlan o) := by
  refine Asks.bind (Asks.lift _) fun keys _ => ?_
  refine Asks.bind (gather_reading (σ := σ) o.fuel 0 o.ops
    ⟨List.replicate o.ops.length .nothing, [], []⟩ fun c hc => absurd hc List.not_mem_nil) ?_
  intro g hg
  refine Asks.bind (readGets_reading g hg.2) fun results _ => ?_
  rw [hg.1, h]
  exact Asks.pure trivial

end Plans

section Histories

/-- What a history of batches on the namespaces in use reaches from a database. -/
def Storage.Reachable (σ : Storage T) (U : Set (List Str)) (scanner : Scanner Str Bytes Str)
    (db : Db) (a : Config Db Cmd Answer StorageError (List (Result T)) (BatchRun T)) : Prop :=
  Reached (σ.guarding U scanner) σ.batchPlan (BatchRun.locks U)
    (fun o _ => ∀ op ∈ putsOf o.ops, op.namespace_ ∈ U) ⟨db, []⟩ a

/-- The catalogs only have members of items under their prefix and cover every item. -/
structure Storage.Consistent (σ : Storage T) (U : Set (List Str)) (db : Db) : Prop where
  sound : σ.Sound U db
  covered : ∀ x : Place U, σ.Covered U x (σ.view U x db)

theorem batches_start (hσ : Lawful σ) (hU : CollisionFree σ U) :
    Starts (σ.guarding U scanner) σ.batchPlan (BatchRun.locks U)
      (fun o _ => ∀ op ∈ putsOf o.ops, op.namespace_ ∈ U) (σ.Covered U)
      (fun _ x _ w => σ.Covered U x w) := by
  intro o db hused hsound hgood
  refine ⟨fun x _ => batchPlan_safe hσ hU o hused (hgood x), fun hempty => ?_⟩
  cases hkeys : σ.mutationLockKeys o.ops with
  | error e =>
    have hplan : σ.batchPlan o = .finish (.error e) := by
      unfold Storage.batchPlan Storage.lockedBatch
      rw [hkeys]
      rfl
    rw [hplan]
    exact fun _ _ => trivial
  | ok keys =>
    have hputs : putsOf o.ops = [] := by
      refine List.eq_nil_iff_forall_not_mem.mpr fun op hop => ?_
      obtain ⟨hvalid, hns, hkey⟩ := mutationLockKeys_ok hkeys op hop
      have hmem : placeOf op (hused op hop) hvalid hns hkey ∈ o.locks U := ⟨op, hop, rfl⟩
      rw [hempty] at hmem
      exact hmem
    exact (batchPlan_reading o hputs).mono (fun _ => reads_free) fun _ ha => ha

theorem Storage.Reachable.consistent (hσ : Lawful σ) (hU : CollisionFree σ U) {db : Db}
    (hdb : σ.Consistent U db)
    {a : Config Db Cmd Answer StorageError (List (Result T)) (BatchRun T)}
    (h : σ.Reachable U scanner db a) : σ.Consistent U a.state := by
  have hstart : Orderly (σ.guarding U scanner) (BatchRun.locks U) (σ.Covered U)
      (fun (_ : BatchRun T) x (_ : Except StorageError (List (Result T))) w => σ.Covered U x w)
      ⟨db, []⟩ :=
    ⟨hdb.sound, hdb.covered, .nil, fun j hj => absurd hj List.not_mem_nil⟩
  have horderly := Orderly.reached (batches_start hσ hU) hstart h
  exact ⟨horderly.sound, horderly.good⟩

theorem empty_consistent (σ : Storage T) (U : Set (List Str)) :
    σ.Consistent U Database.empty := by
  refine ⟨⟨fun key m hm => absurd hm (OrderedSet.not_mem_empty m), fun key field b hb => ?_⟩,
    fun x b hb => ?_⟩
  · cases hb
  · cases hb

end Histories

end FerricStore.MemoryStore
