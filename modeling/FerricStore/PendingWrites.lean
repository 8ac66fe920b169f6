import FerricStore.CheckpointReading
import Mathlib.Data.List.TakeWhile

/-!
# Pending writes of the checkpoint store

The writes of a task are fields of the hash of their thread and namespace, named by the
checkpoint, the task and the index. A field with a negative index keeps the last write, any
other the first one. Whatever calls are made, and wherever they are cut off, a checkpoint
has one pending write for each task and index written for it.
-/

set_option autoImplicit false

namespace FerricStore.CheckpointStore
open Text DecimalText OrderedKeys StorageKeys CheckpointKeys CommandPlans KeyedDatabase
open MemoryStore (Db Cmd Answer StorePlan field isFormatVersion)

section Stopping

variable {S C R E α β : Type} {exec : C → S → R × S}

/-- The state after so many requests of a plan that runs alone. -/
def stopAfter (exec : C → S → R × S) : ℕ → Plan C R E α → S → S
  | 0, _, s => s
  | _+1, .finish _, s => s
  | n+1, .request cs next, s =>
    stopAfter exec n (next (execAll exec cs s).1) (execAll exec cs s).2

@[simp] theorem stopAfter_zero (p : Plan C R E α) (s : S) : stopAfter exec 0 p s = s := by
  unfold stopAfter
  cases p <;> rfl

@[simp] theorem stopAfter_finish (n : ℕ) (result : Except E α) (s : S) :
    stopAfter exec n (.finish result : Plan C R E α) s = s := by
  cases n <;> rfl

@[simp] theorem stopAfter_command [Inhabited R] (n : ℕ) (c : C) (k : R → Plan C R E α) (s : S) :
    stopAfter exec (n+1) (.command c >>= k) s = stopAfter exec n (k (exec c s).1) (exec c s).2 :=
  rfl

/-- What every command of a plan keeps, the plan keeps wherever it stops. -/
theorem asks_stopAfter {P : C → Prop} {A : α → Prop} {I : S → Prop}
    (hP : ∀ c s, P c → I s → I (exec c s).2) {p : Plan C R E α} (hp : Asks P A p) (n : ℕ) {s : S}
    (h : I s) : I (stopAfter exec n p s) := by
  have hall : ∀ cs s, (∀ c ∈ cs, P c) → I s → I (execAll exec cs s).2 := by
    intro cs
    induction cs with
    | nil => exact fun s _ hs => hs
    | cons c cs ih =>
      intro s hcs hs
      exact ih _ (fun d hd => hcs d (List.mem_cons_of_mem c hd))
        (hP c s (hcs c List.mem_cons_self) hs)
  induction p generalizing n s with
  | finish result => simpa using h
  | request cs next ih =>
    cases n with
    | zero => simpa using h
    | succ n => exact ih _ (hp.2 _) n (hall cs s hp.1 h)

end Stopping

section Folds

variable {α β : Type} {p : α → Prop} [DecidablePred p] {g : α → β}
  {step : Option β → α → Option β} {as : List α}

/-- Steps that set what is not set yet keep the first value. -/
theorem foldl_first (hp : ∀ a ∈ as, p a → ∀ old, step old a = old.or (some (g a)))
    (hn : ∀ a ∈ as, ¬p a → ∀ old, step old a = old) (old : Option β) :
    as.foldl step old = old.or ((as.filter p).head?.map g) := by
  induction as generalizing old with
  | nil => simp
  | cons a as ih =>
    have hrest := ih (fun x hx => hp x (List.mem_cons_of_mem a hx))
      (fun x hx => hn x (List.mem_cons_of_mem a hx))
    rw [List.foldl_cons, hrest]
    by_cases ha : p a
    · rw [hp a List.mem_cons_self ha, List.filter_cons_of_pos (by simpa using ha)]
      cases old <;> rfl
    · rw [hn a List.mem_cons_self ha, List.filter_cons_of_neg (by simpa using ha)]

/-- Steps that set a value keep the last one. -/
theorem foldl_last (hp : ∀ a ∈ as, p a → ∀ old, step old a = some (g a))
    (hn : ∀ a ∈ as, ¬p a → ∀ old, step old a = old) (old : Option β) :
    as.foldl step old = ((as.filter p).getLast?.map g).or old := by
  induction as generalizing old with
  | nil => simp
  | cons a as ih =>
    have hrest := ih (fun x hx => hp x (List.mem_cons_of_mem a hx))
      (fun x hx => hn x (List.mem_cons_of_mem a hx))
    rw [List.foldl_cons, hrest]
    by_cases ha : p a
    · rw [hp a List.mem_cons_self ha, List.filter_cons_of_pos (by simpa using ha),
        List.getLast?_cons]
      cases (as.filter p).getLast? <;> rfl
    · rw [hn a List.mem_cons_self ha, List.filter_cons_of_neg (by simpa using ha)]

end Folds

section Histories

inductive Operation where
  | put (config : Config) (checkpoint metadata : Dict Key Value)
  | putWrites (config : Config) (writes : List (Str × Value)) (taskId taskPath : Str)

def Operation.config : Operation → Config
  | .put config .. => config
  | .putWrites config .. => config

def Storage.operate (σ : Storage) : Operation → StorePlan Unit
  | .put config checkpoint metadata => do
    let _ ← σ.put config checkpoint metadata
    pure ()
  | .putWrites config writes taskId taskPath => σ.putWrites config writes taskId taskPath

/-- A call and the number of its commands that were executed. -/
structure Call where
  op : Operation
  commands : ℕ

def Storage.callAfter (σ : Storage) (scanner : Scanner Str Bytes Str) (db : Db) (c : Call) : Db :=
  stopAfter (exec scanner) c.commands (σ.operate c.op) db

/-- The database after some calls. -/
def Storage.after (σ : Storage) (scanner : Scanner Str Bytes Str) (calls : List Call) : Db :=
  calls.foldl (σ.callAfter scanner) Database.empty

/-- A write for a checkpoint of a thread and a namespace. -/
structure Written where
  threadId : Str
  checkpointNs : Str
  checkpointId : Str
  entry : WriteEntry

/-- What a write is for. -/
structure Place where
  threadId : Str
  checkpointNs : Str
  checkpointId : Str
  taskId : Str
  index : ℤ
  deriving DecidableEq

def Written.place (w : Written) : Place :=
  ⟨w.threadId, w.checkpointNs, w.checkpointId, w.entry.taskId, w.entry.index⟩

variable (σ : Storage)

/-- What the writes of a configuration are for, if their hash can be named and described. -/
def Storage.target (config : Config) : Except StorageError (Str × Str × Str) := do
  let (threadId, checkpointNs) ← σ.identity config
  match σ.checkpointId config with
  | none => .error (valueError "put_writes requires checkpoint_id in configurable")
  | some checkpointId => do
    let _ ← threadKey σ.sha256 σ.keyPrefix threadId checkpointNs
    let _ ← threadCatalogKey σ.sha256 σ.keyPrefix threadId
    let _ ← σ.descriptor threadId checkpointNs
    .ok (threadId, checkpointNs, checkpointId)

/-- The write can be named and serialized. -/
def Storage.accepts (w : Written) : Bool :=
  (writeField w.checkpointId w.entry.taskId w.entry.index).isOk && (σ.writeRecord w.entry).isOk

/-- The writes of a call that were executed: after two commands one for each command, up to
the first that is not accepted. -/
def Storage.applied (c : Call) : List Written :=
  match c.op with
  | .put .. => []
  | .putWrites config writes taskId taskPath =>
    match σ.target config with
    | .error _ => []
    | .ok (threadId, checkpointNs, checkpointId) =>
      (((σ.writeEntries writes taskId taskPath).map fun w =>
        (⟨threadId, checkpointNs, checkpointId, w⟩ : Written)).takeWhile σ.accepts).take
          (c.commands-2)

/-- All writes that were executed, in their order. -/
def Storage.history (calls : List Call) : List Written := calls.flatMap σ.applied

/-- The write that counts at a place: the first, or the last one if the index is negative. -/
def lasting (ws : List Written) (place : Place) : Option Written :=
  let here := ws.filter fun w => w.place = place
  if place.index < 0 then here.getLast? else here.head?

/-- What a write makes of a field. -/
def Storage.effect (key f : Str) (old : Option Bytes) (w : Written) : Option Bytes :=
  match threadKey σ.sha256 σ.keyPrefix w.threadId w.checkpointNs with
  | .error _ => old
  | .ok hash =>
    match σ.writeCommand hash w.checkpointId w.entry with
    | .error _ => old
    | .ok c => c.writes key f old

end Histories

section Effects

variable {σ : Storage} {U : Set (Str × Str)} {scanner : Scanner Str Bytes Str}

theorem not_write_descriptor : ¬lit "write:" <+: descriptorField := by
  decide

theorem not_write_checkpoint {id name : Str} (h : checkpointField id = .ok name) :
    ¬lit "write:" <+: name := by
  intro hwrite
  rcases List.prefix_or_prefix_of_prefix hwrite
    (HashField.head_name (f := .checkpoint id) h) with hp | hp
  · exact absurd hp (by simp only [HashField.head]; decide)
  · exact absurd hp (by simp only [HashField.head]; decide)

/-- A command that writes no field of a write. -/
def Quiet (c : Cmd) : Prop := ∀ key f, lit "write:" <+: f → ¬c.writesAt key f

theorem put_quiet (config : Config) (checkpoint metadata : Dict Key Value) :
    Asks Quiet (fun _ => True) (σ.put config checkpoint metadata) := by
  refine Asks.bind (Asks.lift _) fun r _ => ?_
  refine Asks.bind (Asks.lift _) fun key _ => ?_
  refine Asks.bind (Asks.lift _) fun locator _ => ?_
  refine Asks.bind (Asks.lift _) fun catalog _ => ?_
  refine Asks.bind (Asks.command fun _ _ _ h => h) fun _ _ => ?_
  refine Asks.bind (Asks.lift _) fun locators _ => ?_
  refine Asks.bind (Asks.command fun _ _ _ h => h) fun _ _ => ?_
  refine Asks.bind (Asks.command fun _ _ _ h => h) fun _ _ => ?_
  refine Asks.bind (Asks.command fun _ _ _ h => h) fun _ _ => ?_
  refine Asks.bind (Asks.lift _) fun descriptor _ => ?_
  refine Asks.bind (Asks.lift _) fun name hname => ?_
  refine Asks.bind (Asks.lift _) fun value _ => ?_
  refine Asks.bind (Asks.command ?_) fun _ _ => Asks.pure trivial
  rintro key' f hf ⟨-, x, hx, rfl⟩
  rcases List.mem_cons.mp hx with rfl | hx
  · exact not_write_descriptor hf
  · obtain rfl := List.mem_singleton.mp hx
    exact not_write_checkpoint hname hf

theorem putEntries_get {t ns hash id : Str}
    (hkey : threadKey σ.sha256 σ.keyPrefix t ns = .ok hash) (ws : List WriteEntry) (n : ℕ)
    (db : Db) (key f : Str) :
    (stopAfter (exec scanner) n (σ.putEntries hash id ws) db).get key f =
      (((ws.map fun w => (⟨t, ns, id, w⟩ : Written)).takeWhile σ.accepts).take n).foldl
        (σ.effect key f) (db.get key f) := by
  induction ws generalizing n db with
  | nil => simp [Storage.putEntries, Plan.pure_eq]
  | cons w ws ih =>
    rw [Storage.putEntries, Plan.lift_bind, List.map_cons]
    cases hc : σ.writeCommand hash id w with
    | error e =>
      have hrejected : σ.accepts ⟨t, ns, id, w⟩ = false := by
        unfold Storage.accepts
        rw [Storage.writeCommand] at hc
        cases hname : writeField id w.taskId w.index with
        | error _ => simp [Except.isOk, Except.toBool]
        | ok name =>
          rw [hname] at hc
          cases hvalue : σ.writeRecord w with
          | error _ => simp [Except.isOk, Except.toBool]
          | ok value =>
            rw [hvalue] at hc
            cases hc
      simp [hrejected]
    | ok c =>
      obtain ⟨name, value, hname, hvalue, -⟩ := writeCommand_ok hc
      have haccepted : σ.accepts ⟨t, ns, id, w⟩ = true := by
        simp [Storage.accepts, hname, hvalue, Except.isOk, Except.toBool]
      have heffect (old : Option Bytes) :
          σ.effect key f old ⟨t, ns, id, w⟩ = c.writes key f old := by
        simp only [Storage.effect, hkey, hc]
      cases n with
      | zero => simp
      | succ n =>
        simp only [stopAfter_command, List.takeWhile_cons, haccepted, if_true, List.take_succ_cons,
          List.foldl_cons, heffect]
        rw [ih, get_exec]

/-- The fields of writes after a call. -/
theorem callAfter_get (c : Call) (db : Db) {key f : Str} (hf : lit "write:" <+: f) :
    (σ.callAfter scanner db c).get key f =
      (σ.applied c).foldl (σ.effect key f) (db.get key f) := by
  obtain ⟨op, n⟩ := c
  cases op with
  | put config checkpoint metadata =>
    have hquiet : Asks Quiet (fun _ : Unit => True) (σ.operate (.put config checkpoint metadata)) :=
      Asks.bind (put_quiet config checkpoint metadata) fun _ _ => Asks.pure trivial
    refine asks_stopAfter (I := fun s : Db => s.get key f = db.get key f) ?_ hquiet n rfl
    intro c s hc hs
    rw [get_exec, writes_unchanged (hc key f hf), hs]
  | putWrites config writes taskId taskPath =>
    simp only [Storage.callAfter, Storage.operate, Storage.applied, Storage.target]
    rw [Storage.putWrites, Plan.lift_bind]
    cases σ.identity config with
    | error e => simp [Bind.bind, Except.bind]
    | ok p =>
      obtain ⟨t, ns⟩ := p
      simp only [except_ok_bind]
      cases σ.checkpointId config with
      | none => simp
      | some id =>
        simp only [Plan.lift_bind]
        cases hkey : threadKey σ.sha256 σ.keyPrefix t ns with
        | error e => simp [Bind.bind, Except.bind]
        | ok hash =>
          simp only [except_ok_bind]
          cases threadCatalogKey σ.sha256 σ.keyPrefix t with
          | error e => simp [Bind.bind, Except.bind]
          | ok catalog =>
            simp only [except_ok_bind]
            have hsadd (d : Db) : (exec scanner (.sadd catalog (utf8 hash)) d).2.get key f =
                d.get key f := rfl
            cases n with
            | zero => cases σ.descriptor t ns <;> simp [Bind.bind, Except.bind]
            | succ n =>
              rw [stopAfter_command]
              cases σ.descriptor t ns with
              | error e => simp [Bind.bind, Except.bind, hsadd]
              | ok descriptor =>
                have hdescriptor (d : Db) : (exec scanner
                    (.hsetnx hash descriptorField descriptor) d).2.get key f = d.get key f := by
                  rw [get_exec, writes_unchanged]
                  rintro ⟨-, rfl⟩
                  exact not_write_descriptor hf
                cases n with
                | zero =>
                  rw [except_ok_bind]
                  simp [hsadd]
                | succ n =>
                  simp only [stopAfter_command, except_ok_bind]
                  rw [putEntries_get hkey, hdescriptor, hsadd]
                  rfl

/-- The fields of writes after some calls. -/
theorem after_get (calls : List Call) {key f : Str} (hf : lit "write:" <+: f) :
    (σ.after scanner calls).get key f = (σ.history calls).foldl (σ.effect key f) none := by
  have hfrom : ∀ db : Db, (calls.foldl (σ.callAfter scanner) db).get key f =
      (σ.history calls).foldl (σ.effect key f) (db.get key f) := by
    induction calls with
    | nil => exact fun db => rfl
    | cons c calls ih =>
      intro db
      rw [List.foldl_cons, ih, callAfter_get c db hf, Storage.history, Storage.history,
        List.flatMap_cons, List.foldl_append]
  exact hfrom Database.empty

/-- The thread and the namespace of every write are in use, and the write is accepted. -/
theorem history_mem {calls : List Call} (hused : ∀ c ∈ calls, σ.Uses U c.op.config)
    {w : Written} (h : w ∈ σ.history calls) :
    (w.threadId, w.checkpointNs) ∈ U ∧ σ.accepts w = true ∧
      ∃ key, threadKey σ.sha256 σ.keyPrefix w.threadId w.checkpointNs = .ok key := by
  obtain ⟨⟨op, n⟩, hc, hw⟩ := List.mem_flatMap.mp h
  cases op with
  | put config checkpoint metadata => exact absurd hw List.not_mem_nil
  | putWrites config writes taskId taskPath =>
    simp only [Storage.applied] at hw
    cases htarget : σ.target config with
    | error e =>
      rw [htarget] at hw
      exact absurd hw List.not_mem_nil
    | ok target =>
      obtain ⟨t, ns, id⟩ := target
      rw [htarget] at hw
      have hprefix := List.mem_of_mem_take hw
      obtain ⟨entry, -, rfl⟩ := List.mem_map.mp (List.takeWhile_subset _ hprefix)
      obtain ⟨⟨t', ns'⟩, hidentity, htarget⟩ := except_bind_eq_ok htarget
      simp only at htarget
      cases hconfig : σ.checkpointId config with
      | none =>
        rw [hconfig] at htarget
        cases htarget
      | some id' =>
        rw [hconfig] at htarget
        obtain ⟨key, hkey, htarget⟩ := except_bind_eq_ok htarget
        obtain ⟨_, _, htarget⟩ := except_bind_eq_ok htarget
        obtain ⟨_, _, htarget⟩ := except_bind_eq_ok htarget
        cases htarget
        exact ⟨hused _ hc _ hidentity, List.mem_takeWhile_imp hprefix, key, hkey⟩

/-- The bytes of a write that is accepted. -/
def Storage.bytes (σ : Storage) (w : Written) : Bytes := (σ.writeRecord w.entry).toOption.getD []

theorem accepts_iff {w : Written} : σ.accepts w = true ↔
    ∃ name, writeField w.checkpointId w.entry.taskId w.entry.index = .ok name ∧
      σ.writeRecord w.entry = .ok (σ.bytes w) := by
  unfold Storage.accepts Storage.bytes
  cases writeField w.checkpointId w.entry.taskId w.entry.index <;> cases σ.writeRecord w.entry <;>
    simp [Except.isOk, Except.toBool, Except.toOption]

/-- A field of a write holds the write that counts at its place. -/
theorem after_write (hσ : Lawful σ U) {calls : List Call}
    (hused : ∀ c ∈ calls, σ.Uses U c.op.config) {t ns key id task name : Str} {index : ℤ}
    (hU : (t, ns) ∈ U) (hkey : threadKey σ.sha256 σ.keyPrefix t ns = .ok key)
    (hname : writeField id task index = .ok name) :
    (σ.after scanner calls).get key name =
      (lasting (σ.history calls) ⟨t, ns, id, task, index⟩).map σ.bytes := by
  have hwrite : lit "write:" <+: name := HashField.head_name (f := .write id task index) hname
  have hhere : ∀ w ∈ σ.history calls, w.place = ⟨t, ns, id, task, index⟩ → ∀ old,
      σ.effect key name old w =
        if index < 0 then some (σ.bytes w) else old.or (some (σ.bytes w)) := by
    intro w hw hplace old
    obtain ⟨-, haccepted, -⟩ := history_mem hused hw
    obtain ⟨name', hname', hvalue⟩ := accepts_iff.mp haccepted
    obtain ⟨rfl, rfl, rfl, rfl, rfl⟩ := Place.mk.inj hplace
    cases hname.symm.trans hname'
    simp only [Storage.effect, hkey, Storage.writeCommand, hname, hvalue, except_ok_bind]
    split_ifs <;> simp [KeyedDatabase.Command.writes]
  have helse : ∀ w ∈ σ.history calls, ¬w.place = ⟨t, ns, id, task, index⟩ → ∀ old,
      σ.effect key name old w = old := by
    intro w hw hplace old
    obtain ⟨hwU, haccepted, key', hkey'⟩ := history_mem hused hw
    obtain ⟨name', hname', hvalue⟩ := accepts_iff.mp haccepted
    have hapart : ¬(key' = key ∧ name' = name) := by
      rintro ⟨rfl, rfl⟩
      obtain ⟨ht, hns⟩ := hσ.threadKey_inj hwU hU hkey' hkey
      obtain ⟨hid, htask, hindex⟩ := writeField_inj hname' hname
      exact hplace (by rw [Written.place, ht, hns, hid, htask, hindex])
    simp only [Storage.effect, hkey', Storage.writeCommand, hname', hvalue, except_ok_bind]
    split_ifs
    · refine writes_unchanged ?_
      rintro ⟨hk, x, hx, hf⟩
      obtain rfl := List.mem_singleton.mp hx
      exact hapart ⟨hk, hf⟩
    · exact if_neg hapart
  rw [after_get calls hwrite, lasting]
  split_ifs with hindex
  · rw [foldl_last (g := σ.bytes) (fun w hw hp old => by rw [hhere w hw hp, if_pos hindex]) helse,
      Option.or_none]
  · rw [foldl_first (g := σ.bytes) (fun w hw hp old => by rw [hhere w hw hp, if_neg hindex]) helse,
      Option.none_or]

theorem lasting_mem {ws : List Written} {place : Place} {w : Written}
    (h : lasting ws place = some w) : w ∈ ws ∧ w.place = place := by
  have hmem : w ∈ ws.filter fun w => w.place = place := by
    unfold lasting at h
    simp only at h
    split_ifs at h
    · exact List.mem_of_getLast? h
    · exact List.mem_of_head? h
  obtain ⟨hw, hplace⟩ := List.mem_filter.mp hmem
  exact ⟨hw, of_decide_eq_true hplace⟩

/-- A hash holds the writes that count. -/
theorem after_holds (hσ : Lawful σ U) {calls : List Call}
    (hused : ∀ c ∈ calls, σ.Uses U c.op.config) {t ns key id : Str} (hU : (t, ns) ∈ U)
    (hkey : threadKey σ.sha256 σ.keyPrefix t ns = .ok key) (e : WriteEntry) :
    σ.Holds (σ.after scanner calls) key id e ↔
      lasting (σ.history calls) ⟨t, ns, id, e.taskId, e.index⟩ = some ⟨t, ns, id, e⟩ := by
  constructor
  · rintro ⟨name, value, hname, hvalue, hget⟩
    rw [after_write hσ hused hU hkey hname] at hget
    obtain ⟨w, hw, hbytes⟩ := Option.map_eq_some_iff.mp hget
    obtain ⟨hmem, hplace⟩ := lasting_mem hw
    obtain ⟨name', -, hrecord⟩ := accepts_iff.mp (history_mem hused hmem).2.1
    rw [hbytes] at hrecord
    have hentry := writeRecord_inj hσ hrecord hvalue
    obtain ⟨t', ns', id', e'⟩ := w
    obtain ⟨rfl, rfl, rfl, -, -⟩ := Place.mk.inj hplace
    rw [hw, ← hentry]
  · intro h
    obtain ⟨hmem, -⟩ := lasting_mem h
    obtain ⟨name, hname, hrecord⟩ := accepts_iff.mp (history_mem hused hmem).2.1
    exact ⟨name, _, hname, hrecord, by rw [after_write hσ hused hU hkey hname, h]; rfl⟩

theorem operate_asks {op : Operation} (hused : σ.Uses U op.config) :
    Asks (σ.Genuine U) (fun _ : Unit => True) (σ.operate op) := by
  cases op with
  | put config checkpoint metadata =>
    exact Asks.bind (put_asks hused checkpoint metadata) fun _ _ => Asks.pure trivial
  | putWrites config writes taskId taskPath => exact putWrites_asks hused writes taskId taskPath

theorem callAfter_sane {c : Call} (hused : σ.Uses U c.op.config) {db : Db} (hdb : σ.Sane U db) :
    σ.Sane U (σ.callAfter scanner db c) :=
  asks_stopAfter (fun _ _ hc hs => hs.exec (.inr hc)) (operate_asks hused) c.commands hdb

theorem after_sane {calls : List Call} (hused : ∀ c ∈ calls, σ.Uses U c.op.config) :
    σ.Sane U (σ.after scanner calls) := by
  have hfrom : ∀ db : Db, σ.Sane U db → σ.Sane U (calls.foldl (σ.callAfter scanner) db) := by
    induction calls with
    | nil => exact fun db hdb => hdb
    | cons c calls ih =>
      intro db hdb
      exact ih (fun d hd => hused d (List.mem_cons_of_mem c hd)) _
        (callAfter_sane (hused c List.mem_cons_self) hdb)
  exact hfrom _ empty_sane

end Effects

section Repetition

variable {σ : Storage} {U : Set (Str × Str)} {scanner : Scanner Str Bytes Str} {db : Db}

/-- What the command would put is there. -/
def Absorbed (c : Cmd) (db : Db) : Prop :=
  match c with
  | .sadd key m => m ∈ db.sets key
  | .hsetnx key f _ => (db.get key f).isSome = true
  | _ => False

def absorbable : Cmd → Bool
  | .sadd .. | .hsetnx .. => true
  | _ => false

theorem absorbed_exec {c : Cmd} (h : Absorbed c db) : (exec scanner c db).2 = db := by
  cases c with
  | sadd key m =>
    have hplace : ∀ l : List Bytes, l.Pairwise (· < ·) → m ∈ l → OrderedSet.place m l = l := by
      intro l hl hm
      induction l with
      | nil => exact absurd hm List.not_mem_nil
      | cons a l ih =>
        obtain ⟨hhead, htail⟩ := List.pairwise_cons.mp hl
        rcases List.mem_cons.mp hm with rfl | hm
        · rw [OrderedSet.place, if_neg (lt_irrefl m), if_pos rfl]
        · have hlt := hhead m hm
          rw [OrderedSet.place, if_neg (lt_asymm hlt), if_neg (ne_of_gt hlt), ih htail hm]
    have hsame : (db.sets key).insert m = db.sets key := by
      cases hs : db.sets key with
      | mk l hl =>
        have hm : m ∈ l := by
          have hin : m ∈ (db.sets key).members := h
          rwa [hs] at hin
        simp only [OrderedSet.insert, hplace l hl hm]
    simp only [exec, hsame, Function.update_eq_self]
  | hsetnx key f b => simp only [exec, if_pos (show (db.get key f).isSome = true from h)]
  | hget | hset | hdel | hscan | zadd | zrem | zrange | zrevrange | smembers | del => exact h.elim

theorem absorbed_after {c : Cmd} (h : absorbable c = true) (db : Db) :
    Absorbed c (exec scanner c db).2 := by
  cases c with
  | sadd key m =>
    rw [Absorbed, mem_set_exec]
    exact .inl ⟨rfl, rfl⟩
  | hsetnx key f b =>
    rw [Absorbed, get_exec]
    simp only [KeyedDatabase.Command.writes, and_self, if_true]
    cases db.get key f <;> rfl
  | hget | hset | hdel | hscan | zadd | zrem | zrange | zrevrange | smembers | del => cases h

/-- Nothing is removed, so what is there stays. -/
theorem absorbed_keep {c d : Cmd} (h : Absorbed c db) (hd : removes d = false) :
    Absorbed c (exec scanner d db).2 := by
  cases c with
  | sadd key m =>
    rw [Absorbed, mem_set_exec]
    cases d with
    | sadd => exact .inr h
    | del => cases hd
    | hget | hset | hsetnx | hdel | hscan | zadd | zrem | zrange | zrevrange | smembers => exact h
  | hsetnx key f b =>
    obtain ⟨old, hold⟩ := Option.isSome_iff_exists.mp (show (db.get key f).isSome = true from h)
    rw [Absorbed, get_exec, hold]
    cases d with
    | hset key' fields =>
      have hfold : ∀ (fields : List (Str × Bytes)) (o : Option Bytes), o.isSome = true →
          (fields.foldl (fun old x => if x.1 = f then some x.2 else old) o).isSome = true := by
        intro fields
        induction fields with
        | nil => exact fun o ho => ho
        | cons x fields ih =>
          intro o ho
          refine ih _ ?_
          simp only
          split_ifs
          · rfl
          · exact ho
      simp only [KeyedDatabase.Command.writes]
      split_ifs
      · exact hfold fields _ rfl
      · rfl
    | hsetnx key' f' b' =>
      simp only [KeyedDatabase.Command.writes]
      split_ifs <;> rfl
    | hdel | del => cases hd
    | hget | hscan | zadd | zrem | zrange | zrevrange | sadd | smembers => rfl
  | hget | hset | hdel | hscan | zadd | zrem | zrange | zrevrange | smembers | del => exact h.elim

theorem genuine_keeps {c : Cmd} (h : σ.Genuine U c) : removes c = false := by
  cases c with
  | hset | hsetnx | zadd | sadd => rfl
  | hget | hdel | hscan | zrem | zrange | zrevrange | smembers | del => exact h

/-- A plan of at most so many commands that are absorbed once they are executed, whatever
they answer. -/
inductive Script : ℕ → StorePlan Unit → Prop where
  | finish {n : ℕ} (result : Except StorageError Unit) : Script n (.finish result)
  | command {n : ℕ} {c : Cmd} {p : StorePlan Unit} : absorbable c = true → Script n p →
    Script (n+1) (.command c >>= fun _ => p)

theorem Script.keeps {n : ℕ} {p : StorePlan Unit} (h : Script n p) :
    Asks (fun c => removes c = false) (fun _ => True) p := by
  induction h with
  | finish result => exact fun _ _ => trivial
  | @command n c p hc _ ih =>
    refine Asks.bind (Asks.command ?_) fun _ _ => ih
    cases c <;> first | rfl | cases hc

/-- Once it has run, all of its commands are absorbed. -/
theorem Script.absorbed {n m : ℕ} {p : StorePlan Unit} (h : Script n p) (hm : n ≤ m) (db : Db) :
    Asks (fun c => Absorbed c (stopAfter (exec scanner) m p db)) (fun _ => True) p := by
  induction h generalizing m db with
  | finish result => exact fun _ _ => trivial
  | @command n c p hc hp ih =>
    obtain ⟨m, rfl⟩ : ∃ k, m = k+1 := ⟨m-1, by omega⟩
    rw [stopAfter_command]
    refine Asks.bind (Asks.command ?_) fun _ _ => ih (by omega) _
    exact asks_stopAfter (P := fun d => removes d = false) (I := fun s => Absorbed c s)
      (fun _ _ hd hs => absorbed_keep hs hd) hp.keeps m (absorbed_after hc db)

theorem putEntries_script (key id : Str) {ws : List WriteEntry} (h : ∀ w ∈ ws, ¬w.index < 0) :
    Script ws.length (σ.putEntries key id ws) := by
  induction ws with
  | nil => exact .finish _
  | cons w ws ih =>
    rw [Storage.putEntries, Plan.lift_bind]
    cases hc : σ.writeCommand key id w with
    | error e => exact .finish _
    | ok c =>
      obtain ⟨name, value, -, -, rfl⟩ := writeCommand_ok hc
      rw [if_neg (h w List.mem_cons_self)]
      exact .command rfl (ih fun x hx => h x (List.mem_cons_of_mem w hx))

theorem putWrites_script {config : Config} {writes : List (Str × Value)} {taskId taskPath : Str}
    (h : ∀ w ∈ writes, ∀ i, σ.writesIndex w.1 = some i → 0 ≤ i) :
    Script (writes.length+2) (σ.putWrites config writes taskId taskPath) := by
  have hentries : ∀ w ∈ σ.writeEntries writes taskId taskPath, ¬w.index < 0 := by
    intro w hw
    obtain ⟨i, hi, rfl⟩ := List.mem_mapIdx.mp hw
    cases hindex : σ.writesIndex writes[i].1 with
    | none => simp
    | some n => simpa using h _ (List.getElem_mem hi) n hindex
  rw [Storage.putWrites, Plan.lift_bind]
  cases σ.identity config with
  | error e => exact .finish _
  | ok p =>
    obtain ⟨t, ns⟩ := p
    simp only
    cases σ.checkpointId config with
    | none => exact .finish _
    | some id =>
      simp only [Plan.lift_bind]
      cases threadKey σ.sha256 σ.keyPrefix t ns with
      | error e => exact .finish _
      | ok key =>
        simp only
        cases threadCatalogKey σ.sha256 σ.keyPrefix t with
        | error e => exact .finish _
        | ok catalog =>
          refine .command rfl ?_
          cases σ.descriptor t ns with
          | error e => exact .finish _
          | ok descriptor =>
            refine .command rfl ?_
            have hscript := putEntries_script (σ := σ) key id hentries
            rwa [Storage.writeEntries, List.length_mapIdx] at hscript

/-- A call that was not cut off and whose channels have no negative index, when it is made
once more. -/
theorem repeated_unchanged {calls : List Call} (hused : ∀ c ∈ calls, σ.Uses U c.op.config)
    {config : Config} {writes : List (Str × Value)} {taskId taskPath : Str}
    (hindex : ∀ w ∈ writes, ∀ i, σ.writesIndex w.1 = some i → 0 ≤ i) {n : ℕ}
    (hn : writes.length+2 ≤ n) (hcall : ⟨.putWrites config writes taskId taskPath, n⟩ ∈ calls)
    (m : ℕ) : σ.callAfter scanner (σ.after scanner calls)
      ⟨.putWrites config writes taskId taskPath, m⟩ = σ.after scanner calls := by
  have hscript : Script (writes.length+2) (σ.putWrites config writes taskId taskPath) :=
    putWrites_script hindex
  obtain ⟨before, rest, rfl⟩ := List.append_of_mem hcall
  have hlater : ∀ (rest : List Call), (∀ c ∈ rest, σ.Uses U c.op.config) → ∀ db : Db,
      Asks (fun c => Absorbed c db) (fun _ => True) (σ.putWrites config writes taskId taskPath) →
      Asks (fun c => Absorbed c (rest.foldl (σ.callAfter scanner) db)) (fun _ => True)
        (σ.putWrites config writes taskId taskPath) := by
    intro rest
    induction rest with
    | nil => exact fun _ _ h => h
    | cons d rest ih =>
      intro hrest db h
      refine ih (fun c hc => hrest c (List.mem_cons_of_mem d hc)) _ (h.mono (fun c hc => ?_)
        fun _ h => h)
      exact asks_stopAfter (P := σ.Genuine U) (I := fun s => Absorbed c s)
        (fun _ _ he hs => absorbed_keep hs (genuine_keeps he))
        (operate_asks (hrest d List.mem_cons_self)) d.commands hc
  have habsorbed := hlater rest (fun c hc => hused c (by simp [hc]))
    (stopAfter (exec scanner) n (σ.putWrites config writes taskId taskPath)
      (before.foldl (σ.callAfter scanner) Database.empty)) (hscript.absorbed hn _)
  have hafter : σ.after scanner (before++⟨.putWrites config writes taskId taskPath, n⟩::rest) =
      rest.foldl (σ.callAfter scanner) (stopAfter (exec scanner) n
        (σ.putWrites config writes taskId taskPath)
        (before.foldl (σ.callAfter scanner) Database.empty)) := by
    rw [Storage.after, List.foldl_append, List.foldl_cons]
    rfl
  rw [← hafter] at habsorbed
  exact asks_stopAfter (I := fun s => s = σ.after scanner
    (before++⟨.putWrites config writes taskId taskPath, n⟩::rest))
    (fun c s hc hs => hs ▸ absorbed_exec (hs ▸ hc)) habsorbed m rfl

end Repetition

section Isolation

/-- The writes that count for a checkpoint, in the order of their tasks and indexes. -/
structure Storage.Reports (σ : Storage) (calls : List Call) (t ns id : Str) (ws : List Written) :
    Prop where
  sorted : ws.Pairwise fun a b => a.entry.order < b.entry.order
  mem : ∀ w, w ∈ ws ↔ w.threadId = t ∧ w.checkpointNs = ns ∧ w.checkpointId = id ∧
    lasting (σ.history calls) w.place = some w

theorem lasting_isSome {ws : List Written} {w : Written} (h : w ∈ ws) :
    ∃ x, lasting ws w.place = some x := by
  have hmem : w ∈ ws.filter fun x => x.place = w.place := List.mem_filter.mpr ⟨h, by simp⟩
  have hne := List.ne_nil_of_mem hmem
  unfold lasting
  simp only
  split_ifs
  · exact ⟨_, List.getLast?_eq_some_getLast hne⟩
  · exact ⟨_, List.head?_eq_some_head hne⟩

variable {σ : Storage} {U : Set (Str × Str)} {scanner : Scanner Str Bytes Str}

/-- One write is reported for every place that was written. -/
theorem Storage.Reports.unique {calls : List Call} {t ns id : Str} {ws : List Written}
    (h : σ.Reports calls t ns id ws) {w : Written} (hw : w ∈ σ.history calls)
    (hplace : w.threadId = t ∧ w.checkpointNs = ns ∧ w.checkpointId = id) :
    ∃! x, x ∈ ws ∧ x.place = w.place := by
  obtain ⟨x, hx⟩ := lasting_isSome hw
  have hxw := (lasting_mem hx).2
  obtain ⟨hthread, hnamespace, hid, -, -⟩ := Place.mk.inj hxw
  refine ⟨x, ⟨(h.mem x).mpr ⟨hthread.trans hplace.1, hnamespace.trans hplace.2.1,
    hid.trans hplace.2.2, hxw ▸ hx⟩, hxw⟩, ?_⟩
  rintro y ⟨hy, hyw⟩
  have hlast := ((h.mem y).mp hy).2.2.2
  rw [hyw, hx] at hlast
  exact (Option.some.inj hlast).symm

end Isolation

section Sample

/-- SHA-256 on the identities of the thread `a` without a namespace. -/
def sampleDigests (b : Bytes) : Str :=
  if b = [97] then lit "ca978112ca1bbdcafac231b39a23dc4da786eff8147c4e72b9807785afee48bb"
  else lit "6aa98e17c109dd8e2ae23a478ceb48e193c730289ba48d741388a3cc8b38ef4f"

def packedText (s : String) : Bytes := UInt8.ofNat (0xa0+(lit s).length)::utf8 (lit s)

def sampleConfig : Config := [(.str (lit "configurable"), .dict [
  (.str (lit "thread_id"), .str (lit "a")), (.str (lit "checkpoint_id"), .str (lit "1"))])]

def sampleRecord : Record :=
  ⟨lit "a", [], lit "1", some (lit "1"), [(.str (lit "id"), .str (lit "1"))], []⟩

def sampleEntry : WriteEntry := ⟨lit "t", lit "c", .int 5, [], 0⟩

/-- The values of one checkpoint and one write, and their MessagePack codes. -/
def packed : List (Value × Bytes) := [
  (.dict [(.str (lit "format_version"), .int 1), (.str (lit "thread_id"), .str (lit "a")),
      (.str (lit "checkpoint_ns"), .str [])],
    0x83::packedText "format_version"++[1]++packedText "thread_id"++packedText "a"++
      packedText "checkpoint_ns"++packedText ""),
  (sampleRecord.value,
    0x87::packedText "format_version"++[1]++packedText "thread_id"++packedText "a"++
      packedText "checkpoint_ns"++packedText ""++packedText "checkpoint_id"++packedText "1"++
      packedText "parent_checkpoint_id"++packedText "1"++packedText "checkpoint"++[0x81]++
      packedText "id"++packedText "1"++packedText "metadata"++[0x80]),
  (.dict sampleEntry.fields,
    0x86::packedText "format_version"++[1]++packedText "task_id"++packedText "t"++
      packedText "channel"++packedText "c"++packedText "value"++[5]++packedText "task_path"++
      packedText ""++packedText "index"++[0])]

/-- The libraries on one checkpoint. -/
def sampleStorage : Storage where
  runtime := Runtime.ascii
  sha256 := sampleDigests
  dumpsTyped v := match packed.find? fun x => x.1 = v with
    | some x => .ok (lit "msgpack", x.2)
    | none => .error (typeError "Type is not msgpack serializable")
  loadsTyped t := match packed.find? fun x => x.2 = t.2 with
    | some x => .ok x.1
    | none => .error (valueError "unpack failed")
  writesIndex channel :=
    if channel = lit "__error__" then some (-1)
    else if channel = lit "__scheduled__" then some (-2)
    else if channel = lit "__interrupt__" then some (-3)
    else if channel = lit "__resume__" then some (-4)
    else none
  checkpointId config := match field config "configurable" with
    | .dict configurable => match field configurable "checkpoint_id" with
      | .str id => some id
      | _ => none
    | _ => none
  checkpointMetadata _ metadata := metadata
  keyPrefix := lit "p"
  scanCount := 256
  scanCount_pos := scanCount_default_pos

def sampleScanner : Scanner Str Bytes Str where
  selects pattern f := pattern.getLast? = some (lit "*").head! ∧ pattern.dropLast <+: f
  page fields _ _ := (0, fields)

def sampleUsed : Set (Str × Str) := { (lit "a", []) }

theorem sample_roundTrip (v : Value) (t : Str × Bytes) (h : sampleStorage.dumpsTyped v = .ok t) :
    sampleStorage.loadsTyped t = .ok v := by
  have hcodes : ∀ x ∈ packed, packed.find? (fun y => y.2 = x.2) = some x := by decide +kernel
  simp only [sampleStorage] at h ⊢
  cases hfind : packed.find? fun x => x.1 = v with
  | none =>
    rw [hfind] at h
    cases h
  | some x =>
    rw [hfind] at h
    cases h
    rw [hcodes x (List.mem_of_find?_eq_some hfind)]
    have hx := List.find?_some hfind
    exact congrArg _ (of_decide_eq_true hx)

theorem sample_identity {o : StorageObject} (h : o ∈ objects sampleUsed) {b : Bytes}
    (hb : o.identity = .ok (some b)) : b = [97] ∨ b = swappedIdentities[0] := by
  obtain rfl | ⟨p, rfl, rfl | rfl | rfl | rfl⟩ := h
  · cases hb
  · exact .inl (Option.some.inj (Except.ok.inj hb)).symm
  · exact .inl (Option.some.inj (Except.ok.inj hb)).symm
  · exact .inr (Option.some.inj (Except.ok.inj hb)).symm
  · exact .inr (Option.some.inj (Except.ok.inj hb)).symm

theorem sample_lawful : Lawful sampleStorage sampleUsed where
  prefix_text := by decide
  digest_text b := by
    simp only [sampleStorage, sampleDigests]
    split_ifs <;> decide +kernel
  digest_length b := by
    simp only [sampleStorage, sampleDigests]
    split_ifs <;> decide +kernel
  collisionFree := by
    have hne : sampleDigests [97] ≠ sampleDigests swappedIdentities[0] := by decide +kernel
    rintro b ⟨o, ho, hb⟩ b' ⟨o', ho', hb'⟩ heq
    rcases sample_identity ho hb with rfl | rfl <;> rcases sample_identity ho' hb' with rfl | rfl
    · rfl
    · exact absurd heq hne
    · exact absurd heq.symm hne
    · rfl
  roundTrip := sample_roundTrip

theorem sample_faithful : Faithful sampleScanner where
  selects_prefix p f _ := by
    have hstar : lit "*" = [(lit "*").head!] := by decide
    simp only [sampleScanner]
    rw [hstar, List.getLast?_concat, List.dropLast_concat]
    simp
  complete fields count _ := ⟨1, fields, by simp [scanPages, sampleScanner], .refl _⟩

def sampleKey : Str :=
  lit "p:\x7blg:6aa98e17c109dd8e2ae23a478ceb48e193c730289ba48d741388a3cc8b38ef4f\x7d:thread"

/-- The write of a task is put twice for a checkpoint. -/
def sampleCalls : List Call := [
  ⟨.put sampleConfig [(.str (lit "id"), .str (lit "1"))] [], 5⟩,
  ⟨.putWrites sampleConfig [(lit "c", .int 5)] (lit "t") [], 3⟩,
  ⟨.putWrites sampleConfig [(lit "c", .int 5)] (lit "t") [], 3⟩]

end Sample

end FerricStore.CheckpointStore
