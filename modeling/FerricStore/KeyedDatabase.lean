import FerricStore.CommandPlans
import Mathlib.Data.List.AList

/-!
# A database of hashes, sorted sets and sets

Keys hold hashes of fields, sorted sets whose members all have one score, so that they
are ordered by themselves, and sets. The effect of a command is stated cell by cell: what
it makes of one field of a hash and of one member of a set.
-/

set_option autoImplicit false

namespace FerricStore.KeyedDatabase

/-- The members of a sorted set in their order. -/
structure OrderedSet (μ : Type) [LinearOrder μ] where
  members : List μ
  sorted : members.Pairwise (· < ·)

namespace OrderedSet

variable {μ : Type} [LinearOrder μ]

instance : Membership μ (OrderedSet μ) := ⟨fun s a => a ∈ s.members⟩

instance (s : OrderedSet μ) (a : μ) : Decidable (a ∈ s) := inferInstanceAs (Decidable (a ∈ s.members))

theorem mem_def {s : OrderedSet μ} {a : μ} : a ∈ s ↔ a ∈ s.members := Iff.rfl

def empty : OrderedSet μ := ⟨[], .nil⟩

theorem not_mem_empty (a : μ) : a ∉ (empty : OrderedSet μ) := List.not_mem_nil

def place (a : μ) : List μ → List μ
  | [] => [a]
  | b::bs => if a < b then a::b::bs else if a = b then b::bs else b::place a bs

theorem mem_place {a b : μ} {bs : List μ} : b ∈ place a bs ↔ b = a ∨ b ∈ bs := by
  induction bs with
  | nil => simp [place]
  | cons c cs ih =>
    unfold place
    split_ifs with hlt heq
    · exact List.mem_cons
    · subst heq
      simp
    · rw [List.mem_cons, List.mem_cons, ih]
      tauto

theorem place_sorted {a : μ} {bs : List μ} (h : bs.Pairwise (· < ·)) :
    (place a bs).Pairwise (· < ·) := by
  induction bs with
  | nil => exact List.pairwise_singleton _ _
  | cons c cs ih =>
    obtain ⟨hc, hcs⟩ := List.pairwise_cons.mp h
    unfold place
    split_ifs with hlt heq
    · refine List.pairwise_cons.mpr ⟨fun b hb => ?_, h⟩
      rcases List.mem_cons.mp hb with rfl | hb
      · exact hlt
      · exact hlt.trans (hc b hb)
    · exact h
    · refine List.pairwise_cons.mpr ⟨fun b hb => ?_, ih hcs⟩
      rcases mem_place.mp hb with rfl | hb
      · exact lt_of_le_of_ne (not_lt.mp hlt) (Ne.symm heq)
      · exact hc b hb

def insert (a : μ) (s : OrderedSet μ) : OrderedSet μ := ⟨place a s.members, place_sorted s.sorted⟩

def remove (as : List μ) (s : OrderedSet μ) : OrderedSet μ :=
  ⟨s.members.filter (· ∉ as), s.sorted.filter _⟩

theorem mem_insert {a b : μ} {s : OrderedSet μ} : b ∈ s.insert a ↔ b = a ∨ b ∈ s := mem_place

theorem mem_remove {as : List μ} {b : μ} {s : OrderedSet μ} : b ∈ s.remove as ↔ b ∈ s ∧ b ∉ as := by
  simp [mem_def, remove]

theorem members_nodup (s : OrderedSet μ) : s.members.Nodup :=
  s.sorted.imp fun h => ne_of_lt h

end OrderedSet

/-- The elements from index `start` to index `stop`, both counted from the end if they are
negative. -/
def slice {α : Type} (start stop : ℤ) (l : List α) : List α :=
  let first := max (if start < 0 then start+l.length else start) 0
  let last := if stop < 0 then stop+l.length else stop
  (l.drop first.toNat).take (last-first+1).toNat

theorem slice_page {α : Type} (l : List α) (start : ℕ) {count : ℕ} (h : 0 < count) :
    slice start (start+count-1 : ℤ) l = (l.drop start).take count := by
  unfold slice
  have hstart : ¬(start : ℤ) < 0 := by omega
  have hstop : ¬(start+count-1 : ℤ) < 0 := by omega
  have hmax : max (start : ℤ) 0 = start := by omega
  have hcount : (start+count-1-start+1 : ℤ).toNat = count := by omega
  simp only [if_neg hstart, if_neg hstop, hmax, hcount, Int.toNat_natCast]

theorem slice_rest {α : Type} (l : List α) (start : ℕ) : slice start (-1) l = l.drop start := by
  unfold slice
  have hstart : ¬(start : ℤ) < 0 := by omega
  have hstop : (-1 : ℤ) < 0 := by omega
  have hmax : max (start : ℤ) 0 = start := by omega
  have hcount : (-1+l.length-start+1 : ℤ).toNat = l.length-start := by omega
  simp only [if_neg hstart, if_pos hstop, hmax, hcount, Int.toNat_natCast]
  exact List.take_of_length_le (by rw [List.length_drop])

variable {κ φ μ π ρ : Type}

inductive Command (κ φ μ π ρ : Type) where
  | hget (key : κ) (field : φ)
  | hset (key : κ) (fields : List (φ × π))
  | hsetnx (key : κ) (field : φ) (value : π)
  | hdel (key : κ) (field : φ)
  | hscan (key : κ) (cursor : ℕ) (pattern : ρ) (count : ℕ)
  | zadd (key : κ) (member : μ)
  | zrem (key : κ) (members : List μ)
  | zrange (key : κ) (start stop : ℤ)
  | zrevrange (key : κ) (start stop : ℤ)
  | sadd (key : κ) (member : μ)
  | smembers (key : κ)
  | del (keys : List κ)

/-- Replies; the counts that writing commands return are left out. -/
inductive Reply (φ μ π : Type) where
  | done
  | value (value : Option π)
  | members (members : List μ)
  | page (cursor : ℕ) (fields : List (φ × π))
  deriving Repr

instance : Inhabited (Reply φ μ π) := ⟨.done⟩

structure Database (κ φ μ π : Type) [LinearOrder μ] where
  hashes : κ → AList fun _ : φ => π
  zsets : κ → OrderedSet μ
  sets : κ → OrderedSet μ

/-- How a server walks over the fields of a hash: the page of a cursor and the cursor of
the next page, which is zero after the last one. -/
structure Scanner (φ π ρ : Type) where
  selects : ρ → φ → Bool
  page : List (φ × π) → ℕ → ℕ → ℕ × List (φ × π)

section Execution

variable [DecidableEq κ] [DecidableEq φ] [LinearOrder μ]

def Database.empty : Database κ φ μ π := ⟨fun _ => ∅, fun _ => .empty, fun _ => .empty⟩

def Database.get (db : Database κ φ μ π) (key : κ) (field : φ) : Option π :=
  (db.hashes key).lookup field

def Database.fields (db : Database κ φ μ π) (key : κ) : List (φ × π) :=
  (db.hashes key).entries.map fun e => (e.1, e.2)

def insertFields (hash : AList fun _ : φ => π) (fields : List (φ × π)) : AList fun _ : φ => π :=
  fields.foldl (fun hash x => hash.insert x.1 x.2) hash

/-- The reply to a command and the database after it. -/
def exec (scanner : Scanner φ π ρ) (c : Command κ φ μ π ρ) (db : Database κ φ μ π) :
    Reply φ μ π × Database κ φ μ π :=
  match c with
  | .hget key field => (.value (db.get key field), db)
  | .hset key fields =>
    (.done, { db with
      hashes := Function.update db.hashes key (insertFields (db.hashes key) fields) })
  | .hsetnx key field value =>
    (.done, if (db.get key field).isSome then db else { db with
      hashes := Function.update db.hashes key ((db.hashes key).insert field value) })
  | .hdel key field =>
    (.done, { db with
      hashes := Function.update db.hashes key ((db.hashes key).erase field) })
  | .hscan key cursor pattern count =>
    let (next, fields) := scanner.page
      ((db.fields key).filter fun x => scanner.selects pattern x.1) cursor count
    (.page next fields, db)
  | .zadd key member =>
    (.done, { db with zsets := Function.update db.zsets key ((db.zsets key).insert member) })
  | .zrem key members =>
    (.done, { db with zsets := Function.update db.zsets key ((db.zsets key).remove members) })
  | .zrange key start stop => (.members (slice start stop (db.zsets key).members), db)
  | .zrevrange key start stop =>
    (.members (slice start stop (db.zsets key).members.reverse), db)
  | .sadd key member =>
    (.done, { db with sets := Function.update db.sets key ((db.sets key).insert member) })
  | .smembers key => (.members (db.sets key).members, db)
  | .del keys =>
    (.done, {
      hashes := fun key => if key ∈ keys then ∅ else db.hashes key
      zsets := fun key => if key ∈ keys then .empty else db.zsets key
      sets := fun key => if key ∈ keys then .empty else db.sets key })

/-- What a command makes of a field. -/
def Command.writes (c : Command κ φ μ π ρ) (key : κ) (field : φ) (old : Option π) : Option π :=
  match c with
  | .hset key' fields =>
    if key' = key then fields.foldl (fun old x => if x.1 = field then some x.2 else old) old
    else old
  | .hsetnx key' field' value => if key' = key ∧ field' = field then old.or (some value) else old
  | .hdel key' field' => if key' = key ∧ field' = field then none else old
  | .del keys => if key ∈ keys then none else old
  | _ => old

/-- What a command makes of the membership in a sorted set. -/
def Command.indexes (c : Command κ φ μ π ρ) (key : κ) (member : μ) (old : Prop) : Prop :=
  match c with
  | .zadd key' member' => key' = key ∧ member = member' ∨ old
  | .zrem key' members => old ∧ ¬(key' = key ∧ member ∈ members)
  | .del keys => old ∧ key ∉ keys
  | _ => old

/-- What a command makes of the membership in a set. -/
def Command.lists (c : Command κ φ μ π ρ) (key : κ) (member : μ) (old : Prop) : Prop :=
  match c with
  | .sadd key' member' => key' = key ∧ member = member' ∨ old
  | .del keys => old ∧ key ∉ keys
  | _ => old

/-- The command may change the field. -/
def Command.writesAt (c : Command κ φ μ π ρ) (key : κ) (field : φ) : Prop :=
  match c with
  | .hset key' fields => key' = key ∧ ∃ x ∈ fields, x.1 = field
  | .hsetnx key' field' _ => key' = key ∧ field' = field
  | .hdel key' field' => key' = key ∧ field' = field
  | .del keys => key ∈ keys
  | _ => False

/-- The command may change the membership in the sorted set. -/
def Command.indexesAt (c : Command κ φ μ π ρ) (key : κ) (member : μ) : Prop :=
  match c with
  | .zadd key' member' => key' = key ∧ member = member'
  | .zrem key' members => key' = key ∧ member ∈ members
  | .del keys => key ∈ keys
  | _ => False

/-- The command may change the membership in the set. -/
def Command.listsAt (c : Command κ φ μ π ρ) (key : κ) (member : μ) : Prop :=
  match c with
  | .sadd key' member' => key' = key ∧ member = member'
  | .del keys => key ∈ keys
  | _ => False

def Command.reads : Command κ φ μ π ρ → Bool
  | .hget .. | .hscan .. | .zrange .. | .zrevrange .. | .smembers .. => true
  | _ => false

variable {scanner : Scanner φ π ρ} {c : Command κ φ μ π ρ} {db : Database κ φ μ π}

omit [LinearOrder μ] in
theorem writes_unchanged {key : κ} {field : φ} {old : Option π} (h : ¬c.writesAt key field) :
    c.writes key field old = old := by
  cases c with
  | hget | hscan | zadd | zrem | zrange | zrevrange | sadd | smembers => rfl
  | hset key' fields =>
    by_cases hkey : key' = key
    · have hfields : ∀ x ∈ fields, x.1 ≠ field := fun x hx hf => h ⟨hkey, x, hx, hf⟩
      rw [Command.writes, if_pos hkey]
      clear h
      induction fields with
      | nil => rfl
      | cons x fields ih =>
        rw [List.foldl_cons, if_neg (hfields x List.mem_cons_self)]
        exact ih fun y hy => hfields y (List.mem_cons_of_mem x hy)
    · rw [Command.writes, if_neg hkey]
  | hsetnx key' field' value => exact if_neg h
  | hdel key' field' => exact if_neg h
  | del keys => exact if_neg h

omit [DecidableEq κ] [DecidableEq φ] [LinearOrder μ] in
theorem indexes_unchanged {key : κ} {member : μ} {old : Prop} (h : ¬c.indexesAt key member) :
    c.indexes key member old ↔ old := by
  cases c with
  | hget | hset | hsetnx | hdel | hscan | zrange | zrevrange | sadd | smembers => rfl
  | zadd key' member' => exact or_iff_right h
  | zrem key' members => exact and_iff_left h
  | del keys => exact and_iff_left h

omit [DecidableEq κ] [DecidableEq φ] [LinearOrder μ] in
theorem lists_unchanged {key : κ} {member : μ} {old : Prop} (h : ¬c.listsAt key member) :
    c.lists key member old ↔ old := by
  cases c with
  | hget | hset | hsetnx | hdel | hscan | zadd | zrem | zrange | zrevrange | smembers => rfl
  | sadd key' member' => exact or_iff_right h
  | del keys => exact and_iff_left h

theorem exec_reads (h : c.reads = true) : (exec scanner c db).2 = db := by
  cases c with
  | hget | hscan | zrange | zrevrange | smembers => rfl
  | hset | hsetnx | hdel | zadd | zrem | sadd | del => cases h

omit [LinearOrder μ] [DecidableEq κ] in
theorem lookup_insertFields (hash : AList fun _ : φ => π) (fields : List (φ × π)) (field : φ) :
    (insertFields hash fields).lookup field =
      fields.foldl (fun old x => if x.1 = field then some x.2 else old) (hash.lookup field) := by
  induction fields generalizing hash with
  | nil => rfl
  | cons x fields ih =>
    change (insertFields (hash.insert x.1 x.2) fields).lookup field = _
    rw [ih, List.foldl_cons]
    by_cases h : x.1 = field
    · subst h
      rw [AList.lookup_insert, if_pos rfl]
    · rw [AList.lookup_insert_ne (Ne.symm h), if_neg h]

theorem get_exec (key : κ) (field : φ) :
    (exec scanner c db).2.get key field = c.writes key field (db.get key field) := by
  cases c with
  | hget | hscan | zadd | zrem | zrange | zrevrange | sadd | smembers => rfl
  | hset key' fields =>
    by_cases h : key' = key
    · subst h
      simp only [exec, Database.get, Command.writes, Function.update_self, if_true]
      exact lookup_insertFields _ _ _
    · simp only [exec, Database.get, Command.writes, Function.update_of_ne (Ne.symm h), if_neg h]
  | hsetnx key' field' value =>
    simp only [exec, Command.writes]
    by_cases hkey : key' = key
    · subst hkey
      by_cases hfield : field' = field
      · subst hfield
        cases hold : db.get key' field' with
        | some old => simp [hold]
        | none => simp [Database.get, AList.lookup_insert]
      · rw [if_neg (fun h : key' = key' ∧ field' = field => hfield h.2)]
        split_ifs
        · rfl
        · simp only [Database.get, Function.update_self, AList.lookup_insert_ne (Ne.symm hfield)]
    · rw [if_neg (fun h : key' = key ∧ field' = field => hkey h.1)]
      split_ifs
      · rfl
      · simp only [Database.get, Function.update_of_ne (Ne.symm hkey)]
  | hdel key' field' =>
    by_cases hkey : key' = key
    · subst hkey
      simp only [exec, Database.get, Command.writes, Function.update_self, true_and]
      by_cases hfield : field' = field
      · subst hfield
        rw [AList.lookup_erase, if_pos rfl]
      · rw [AList.lookup_erase_ne (Ne.symm hfield), if_neg hfield]
    · simp only [exec, Database.get, Command.writes, Function.update_of_ne (Ne.symm hkey),
        if_neg (fun h : key' = key ∧ field' = field => hkey h.1)]
  | del keys =>
    by_cases h : key ∈ keys
    · simp [exec, Database.get, Command.writes, h]
    · simp [exec, Database.get, Command.writes, h]

theorem mem_update_set {sets : κ → OrderedSet μ} {key' key : κ} {s : OrderedSet μ} {member : μ} :
    member ∈ Function.update sets key' s key ↔
      (key' = key ∧ member ∈ s) ∨ (key' ≠ key ∧ member ∈ sets key) := by
  by_cases h : key' = key
  · subst h
    simp
  · simp [Function.update_of_ne (Ne.symm h), h]

theorem mem_zset_exec (key : κ) (member : μ) :
    member ∈ (exec scanner c db).2.zsets key ↔ c.indexes key member (member ∈ db.zsets key) := by
  cases c with
  | hget | hset | hdel | hscan | zrange | zrevrange | sadd | smembers => rfl
  | hsetnx key' field value =>
    simp only [exec, Command.indexes]
    split_ifs <;> rfl
  | zadd key' member' =>
    simp only [exec, Command.indexes, mem_update_set, OrderedSet.mem_insert]
    by_cases h : key' = key
    · subst h
      simp
    · simp [h]
  | zrem key' members =>
    simp only [exec, Command.indexes, mem_update_set, OrderedSet.mem_remove]
    by_cases h : key' = key
    · subst h
      simp
    · simp [h]
  | del keys =>
    by_cases h : key ∈ keys
    · simp [exec, Command.indexes, h, OrderedSet.not_mem_empty]
    · simp [exec, Command.indexes, h]

theorem mem_set_exec (key : κ) (member : μ) :
    member ∈ (exec scanner c db).2.sets key ↔ c.lists key member (member ∈ db.sets key) := by
  cases c with
  | hget | hset | hdel | hscan | zadd | zrem | zrange | zrevrange | smembers => rfl
  | hsetnx key' field value =>
    simp only [exec, Command.lists]
    split_ifs <;> rfl
  | sadd key' member' =>
    simp only [exec, Command.lists, mem_update_set, OrderedSet.mem_insert]
    by_cases h : key' = key
    · subst h
      simp
    · simp [h]
  | del keys =>
    by_cases h : key ∈ keys
    · simp [exec, Command.lists, h, OrderedSet.not_mem_empty]
    · simp [exec, Command.lists, h]

theorem get_execAll (cs : List (Command κ φ μ π ρ)) (db : Database κ φ μ π) (key : κ) (field : φ) :
    (CommandPlans.execAll (exec scanner) cs db).2.get key field =
      cs.foldl (fun old c => c.writes key field old) (db.get key field) := by
  induction cs generalizing db with
  | nil => rfl
  | cons c cs ih =>
    change (CommandPlans.execAll (exec scanner) cs (exec scanner c db).2).2.get key field = _
    rw [ih, get_exec, List.foldl_cons]

omit [LinearOrder μ] in
theorem foldl_writes_unchanged {cs : List (Command κ φ μ π ρ)} {key : κ} {field : φ}
    {old : Option π} (h : ∀ c ∈ cs, ¬c.writesAt key field) :
    cs.foldl (fun old c => c.writes key field old) old = old := by
  induction cs with
  | nil => rfl
  | cons c cs ih =>
    rw [List.foldl_cons, writes_unchanged (h c List.mem_cons_self)]
    exact ih fun d hd => h d (List.mem_cons_of_mem c hd)

omit [LinearOrder μ] in
/-- Commands of which each that writes the field writes the same. -/
theorem foldl_writes_same {cs : List (Command κ φ μ π ρ)} {key : κ} {field : φ}
    {old new : Option π} (h : ∀ c ∈ cs, c.writesAt key field → ∀ old, c.writes key field old = new)
    (hsome : ∃ c ∈ cs, c.writesAt key field) :
    cs.foldl (fun old c => c.writes key field old) old = new := by
  induction cs generalizing old with
  | nil =>
    obtain ⟨c, hc, -⟩ := hsome
    exact absurd hc List.not_mem_nil
  | cons c cs ih =>
    rw [List.foldl_cons]
    have hrest : ∀ d ∈ cs, d.writesAt key field → ∀ old, d.writes key field old = new :=
      fun d hd => h d (List.mem_cons_of_mem c hd)
    by_cases hlater : ∃ d ∈ cs, d.writesAt key field
    · exact ih hrest hlater
    · have hnone : ∀ d ∈ cs, ¬d.writesAt key field := fun d hd hw => hlater ⟨d, hd, hw⟩
      rw [foldl_writes_unchanged hnone]
      obtain ⟨d, hd, hw⟩ := hsome
      rcases List.mem_cons.mp hd with rfl | hd
      · exact h d List.mem_cons_self hw _
      · exact absurd hw (hnone d hd)

end Execution

end FerricStore.KeyedDatabase
