import FerricStore.MutationLocks

/-!
# Steps of a call under mutation locks

What a call owns at the server follows from where it stands: before its first `UNLOCK`
exactly the keys it acquired, and afterwards at least those it has not unlocked. The steps
of the call and of the server at its requests keep this.
-/

set_option autoImplicit false

namespace FerricStore.MutationLocks

variable {I K E R : Type}

section
variable [LinearOrder K]

theorem mem_lockKeys {keys : List K} {k : K} : k ∈ lockKeys keys ↔ k ∈ keys := by
  simp [lockKeys]

theorem lockKeys_sorted (keys : List K) : (lockKeys keys).Pairwise (· < ·) :=
  (Finset.sortedLT_sort _).pairwise

theorem lockKeys_nodup (keys : List K) : (lockKeys keys).Nodup := Finset.sort_nodup _ _

end

@[simp] theorem locks_append (a b : List (Event K E R)) : locks (a++b) = locks a++locks b :=
  List.filterMap_append

@[simp] theorem unlocks_append (a b : List (Event K E R)) :
    unlocks (a++b) = unlocks a++unlocks b :=
  List.filterMap_append

@[simp] theorem endings_append (a b : List (Event K E R)) :
    endings (a++b) = endings a++endings b :=
  List.filterMap_append

@[simp] theorem locks_locked (a : List K) :
    locks (a.map .locked : List (Event K E R)) = a := by
  induction a with
  | nil => rfl
  | cons k a ih => exact congrArg (k::·) ih

@[simp] theorem unlocks_locked (a : List K) :
    unlocks (a.map .locked : List (Event K E R)) = [] := by
  induction a with
  | nil => rfl
  | cons k a ih => exact ih

@[simp] theorem endings_locked (a : List K) :
    endings (a.map .locked : List (Event K E R)) = [] := by
  induction a with
  | nil => rfl
  | cons k a ih => exact ih

/-- A call whose `finally` block has sent the `UNLOCK`s `sent` and has `todo` left. -/
structure Leaving (ordered : List K) (owned : Set K) (sent todo : List K)
    (result : Except (Failure K E) R) (inflight : List (Request K))
    (log : List (Event K E R)) : Prop where
  started : locks log <+: ordered
  unlocks_eq : unlocks log = sent
  split : (locks log).reverse = sent++todo
  endings_eq : endings log = [result]
  kept : ∀ k ∈ todo, k ∈ owned
  unlock_sent : ∀ k, Request.unlock k ∈ inflight → k ∈ sent
  lock_lost : ∀ k, Request.lock k ∈ inflight → k ∉ locks log
  freed : ∀ k, Event.unlocked k ∈ log → k ∈ sent ∧ k ∉ owned

/-- What a call holds, has in flight and has done, where it stands. -/
inductive Fits (ordered : List K) (owned : Set K) : Call K E R → Prop where
  | fresh (howned : owned = ∅) : Fits ordered owned ⟨.fresh, [], []⟩
  | direct (hordered : ordered = []) (howned : owned = ∅) : Fits ordered owned ⟨.direct, [], []⟩
  | acquiring {a rest : List K} (hordered : a++rest = ordered) (howned : owned = {k | k ∈ a}) :
      Fits ordered owned ⟨.acquiring a rest, [], a.map .locked⟩
  | asking {a rest : List K} {key : K} (hordered : a++key::rest = ordered)
      (howned : owned = {k | k ∈ a}) :
      Fits ordered owned ⟨.asking a key rest, [.lock key], a.map .locked⟩
  | granted {a rest : List K} {key : K} {reply : Option Value}
      (hordered : a++key::rest = ordered) (hreply : trySyncLock reply = true)
      (howned : owned = {k | k ∈ a++[key]}) :
      Fits ordered owned ⟨.answered a key rest reply, [], a.map .locked⟩
  | denied {a rest : List K} {key : K} {reply : Option Value}
      (hordered : a++key::rest = ordered) (hreply : trySyncLock reply = false)
      (howned : owned = {k | k ∈ a}) :
      Fits ordered owned ⟨.answered a key rest reply, [], a.map .locked⟩
  | refused {a rest : List K} {key : K} (hordered : a++key::rest = ordered)
      (howned : owned = {k | k ∈ a}) :
      Fits ordered owned ⟨.refused a key rest, [], a.map .locked⟩
  | operating {lost : Option (K × String)} (howned : owned = {k | k ∈ ordered}) :
      Fits ordered owned ⟨.operating ordered lost, [], ordered.map .locked⟩
  | joining {lost : Option (K × String)} {result : Except (Failure K E) R}
      (howned : owned = {k | k ∈ ordered}) :
      Fits ordered owned
        ⟨.joining ordered lost result, [], ordered.map Event.locked++[Event.ended result]⟩
  | releasing {todo sent : List K} {lost : Option (K × String)} {released : Option E}
      {result : Except (Failure K E) R} {w : List (Request K)} {log : List (Event K E R)}
      (h : Leaving ordered owned sent todo result w log) :
      Fits ordered owned ⟨.releasing todo lost released result, w, log⟩
  | unlocking {key : K} {todo sent : List K} {lost : Option (K × String)} {released : Option E}
      {result : Except (Failure K E) R} {w : List (Request K)} {log : List (Event K E R)}
      (h : Leaving ordered owned (sent++[key]) todo result w log)
      (hkey : Request.unlock key ∉ w → key ∉ owned) :
      Fits ordered owned ⟨.unlocking key todo lost released result, w, log⟩
  | finished {sent : List K} {lost : Option (K × String)} {released : Option E}
      {result out : Except (Failure K E) R} {w : List (Request K)} {log : List (Event K E R)}
      (h : Leaving ordered owned sent [] result w log)
      (hout : out = outcome result lost released) :
      Fits ordered owned ⟨.finished out, w, log⟩

@[simp] theorem outcome_none (result : Except (Failure K E) R) :
    outcome result none none = result := by
  cases result <;> rfl

/-- The `finally` block starts with everything that was acquired. -/
theorem Leaving.start {ordered a rest : List K} {owned : Set K} {w : List (Request K)}
    (result : Except (Failure K E) R) (hordered : a++rest = ordered)
    (howned : ∀ k ∈ a, k ∈ owned) (hw : ∀ k, Request.unlock k ∉ w)
    (hlock : ∀ k, Request.lock k ∈ w → k ∉ a) :
    Leaving ordered owned [] a.reverse result w (a.map Event.locked++[Event.ended result]) where
  started := by simpa [locks] using ⟨rest, hordered⟩
  unlocks_eq := by simp [unlocks]
  split := by simp [locks]
  endings_eq := by simp [endings]
  kept := fun k hk => howned k (List.mem_reverse.mp hk)
  unlock_sent := fun k hk => absurd hk (hw k)
  lock_lost := by simpa [locks] using hlock
  freed := by simp

theorem Leaving.nodup {ordered : List K} {owned : Set K} {sent todo : List K}
    {result : Except (Failure K E) R} {w : List (Request K)} {log : List (Event K E R)}
    (h : Leaving ordered owned sent todo result w log) (hordered : ordered.Nodup) :
    (sent++todo).Nodup := by
  rw [← h.split, List.nodup_reverse]
  exact h.started.sublist.nodup hordered

theorem Leaving.locked_of_sent {ordered : List K} {owned : Set K} {sent todo : List K}
    {result : Except (Failure K E) R} {w : List (Request K)} {log : List (Event K E R)}
    (h : Leaving ordered owned sent todo result w log) {k : K} (hk : k ∈ sent) :
    k ∈ locks log := by
  rw [← List.mem_reverse, h.split]
  exact List.mem_append_left _ hk

theorem Leaving.unlock {ordered : List K} {owned : Set K} {sent todo : List K} {key : K}
    {result : Except (Failure K E) R} {w : List (Request K)} {log : List (Event K E R)}
    (h : Leaving ordered owned sent (key::todo) result w log) :
    Leaving ordered owned (sent++[key]) todo result (w++[Request.unlock key])
      (log++[Event.unlock key]) where
  started := by simpa [locks] using h.started
  unlocks_eq := by rw [unlocks_append, h.unlocks_eq]; rfl
  split := by simpa [locks] using h.split
  endings_eq := by simpa [endings] using h.endings_eq
  kept := fun k hk => h.kept k (List.mem_cons_of_mem _ hk)
  unlock_sent := fun k hk => by
    rcases List.mem_append.mp hk with hk | hk
    · exact List.mem_append_left _ (h.unlock_sent k hk)
    · have heq : k = key := by simpa using hk
      simp [heq]
  lock_lost := fun k hk => by
    have hold : Request.lock k ∈ w := by simpa using hk
    simpa [locks] using h.lock_lost k hold
  freed := fun k hk => by
    have hold : Event.unlocked k ∈ log := by simpa using hk
    exact ⟨List.mem_append_left _ (h.freed k hold).1, (h.freed k hold).2⟩

theorem Leaving.unlocked {ordered : List K} {owned : Set K} {sent todo : List K} {key : K}
    {result : Except (Failure K E) R} {w : List (Request K)} {log : List (Event K E R)}
    (h : Leaving ordered owned sent todo result w log) (hsent : key ∈ sent)
    (hkey : key ∉ owned) :
    Leaving ordered owned sent todo result w (log++[Event.unlocked key]) where
  started := by simpa [locks] using h.started
  unlocks_eq := by simpa [unlocks] using h.unlocks_eq
  split := by simpa [locks] using h.split
  endings_eq := by simpa [endings] using h.endings_eq
  kept := h.kept
  unlock_sent := h.unlock_sent
  lock_lost := by simpa [locks] using h.lock_lost
  freed := fun k hk => by
    rcases List.mem_append.mp hk with hk | hk
    · exact h.freed k hk
    · have heq : k = key := by simpa using hk
      exact heq ▸ ⟨hsent, hkey⟩

/-- What the server changes of the keys of the call whose request it handles. -/
def served (owned owned' : Set K) (granted : Bool) : Request K → Prop
  | .lock key => if granted then owned' = insert key owned else owned' = owned
  | .unlock key => owned' = owned \ {key}

theorem served_lock {owned owned' : Set K} {granted : Bool} {key : K}
    (h : served owned owned' granted (.lock key)) :
    owned' = owned ∨ owned' = insert key owned := by
  cases granted with
  | false => exact .inl h
  | true => exact .inr h

section
variable [LinearOrder K]

theorem not_mem_before {a rest : List K} {key : K} {keys : List K}
    (h : a++key::rest = lockKeys keys) : key ∉ a := by
  have hnodup := lockKeys_nodup keys
  rw [← h, List.nodup_append] at hnodup
  exact fun hk => hnodup.2.2 key hk key List.mem_cons_self rfl

/-- A step of a call keeps what fits it. -/
theorem Fits.step {keys : List K} {owned : Set K} {c d : Call K E R}
    (h : Fits (lockKeys keys) owned c) (hstep : CallStep keys c d) :
    Fits (lockKeys keys) owned d := by
  cases hstep with
  | enterDirect hempty =>
    cases h with
    | fresh howned => exact .direct hempty howned
  | enter =>
    cases h with
    | fresh howned => exact .acquiring rfl (by simpa using howned)
  | direct result =>
    cases h with
    | direct hordered howned =>
      have hleaving : Leaving (lockKeys keys) owned [] [] (result.mapError .operation) []
          [.ended (result.mapError .operation)] :=
        Leaving.start (a := []) _ (List.nil_append _) (by simp) (by simp) (by simp)
      exact .finished hleaving (outcome_none _).symm
  | ask =>
    cases h with
    | acquiring hordered howned => exact .asking hordered howned
  | @granted _ _ a key rest _ hreply =>
    cases h with
    | granted hordered _ howned =>
      have hfits : Fits (lockKeys keys) owned
          (⟨.acquiring (a++[key]) rest, [], (a++[key]).map .locked⟩ : Call K E R) :=
        .acquiring (by simpa using hordered) howned
      simpa using hfits
    | denied _ hreply' => rw [hreply] at hreply'; cases hreply'
  | denied hreply =>
    cases h with
    | granted _ hreply' => rw [hreply] at hreply'; cases hreply'
    | denied hordered _ howned => exact .refused hordered howned
  | lockRaised e =>
    cases h with
    | asking hordered howned =>
      refine .releasing (Leaving.start _ hordered (by simp [howned]) (by simp) ?_)
      simpa using not_mem_before hordered
  | replyLost e =>
    cases h with
    | granted hordered _ howned =>
      exact .releasing (Leaving.start _ hordered (by simp +contextual [howned]) (by simp) (by simp))
    | denied hordered _ howned =>
      exact .releasing (Leaving.start _ hordered (by simp [howned]) (by simp) (by simp))
  | expire =>
    cases h with
    | refused hordered howned =>
      exact .releasing (Leaving.start _ hordered (by simp [howned]) (by simp) (by simp))
  | retry =>
    cases h with
    | refused hordered howned => exact .asking hordered howned
  | operate =>
    cases h with
    | acquiring hordered howned =>
      rw [List.append_nil] at hordered
      subst hordered
      exact .operating howned
  | loseLease =>
    cases h with
    | operating howned => exact .operating howned
  | operated result =>
    cases h with
    | operating howned => exact .joining howned
  | loseLeaseLate =>
    cases h with
    | joining howned => exact .joining howned
  | join =>
    cases h with
    | joining howned =>
      exact .releasing
        (Leaving.start _ (List.append_nil _) (by simp [howned]) (by simp) (by simp))
  | unlock =>
    cases h with
    | releasing h => exact .unlocking h.unlock fun habsent => absurd (by simp) habsent
  | unlocked hserved =>
    cases h with
    | unlocking h hkey => exact .releasing (h.unlocked (by simp) (hkey hserved))
  | unlockRaised e =>
    cases h with
    | unlocking h hkey => exact .releasing h
  | finish =>
    cases h with
    | releasing h => exact .finished h rfl

/-- A leaving call when a `LOCK` that it gave up on is handled. -/
theorem Leaving.lockServed {ordered : List K} {owned owned' : Set K} {sent todo : List K}
    {key : K} {result : Except (Failure K E) R} {w : List (Request K)}
    {log : List (Event K E R)} (h : Leaving ordered owned sent todo result w log)
    (hkey : Request.lock key ∈ w) (howned : owned' = owned ∨ owned' = insert key owned) :
    Leaving ordered owned' sent todo result (w.erase (.lock key)) log where
  started := h.started
  unlocks_eq := h.unlocks_eq
  split := h.split
  endings_eq := h.endings_eq
  kept := fun k hk => by
    rcases howned with rfl | rfl
    · exact h.kept k hk
    · exact Set.mem_insert_of_mem _ (h.kept k hk)
  unlock_sent := fun k hk => h.unlock_sent k (List.mem_of_mem_erase hk)
  lock_lost := fun k hk => h.lock_lost k (List.mem_of_mem_erase hk)
  freed := fun k hk => by
    obtain ⟨hsent, hfree⟩ := h.freed k hk
    refine ⟨hsent, ?_⟩
    rcases howned with rfl | rfl
    · exact hfree
    · refine fun hin => hfree (hin.resolve_left fun heq => h.lock_lost key hkey ?_)
      exact heq ▸ h.locked_of_sent hsent

/-- A leaving call when one of its `UNLOCK`s is handled. -/
theorem Leaving.unlockServed {ordered : List K} {owned : Set K} {sent todo : List K}
    {key : K} {result : Except (Failure K E) R} {w : List (Request K)}
    {log : List (Event K E R)} (h : Leaving ordered owned sent todo result w log)
    (hordered : ordered.Nodup) (hkey : Request.unlock key ∈ w) :
    Leaving ordered (owned \ {key}) sent todo result (w.erase (.unlock key)) log where
  started := h.started
  unlocks_eq := h.unlocks_eq
  split := h.split
  endings_eq := h.endings_eq
  kept := fun k hk => by
    refine ⟨h.kept k hk, fun heq => ?_⟩
    have hnodup := List.nodup_append.mp (h.nodup hordered)
    exact hnodup.2.2 key (h.unlock_sent key hkey) k hk heq.symm
  unlock_sent := fun k hk => h.unlock_sent k (List.mem_of_mem_erase hk)
  lock_lost := fun k hk => h.lock_lost k (List.mem_of_mem_erase hk)
  freed := fun k hk => ⟨(h.freed k hk).1, fun hin => (h.freed k hk).2 hin.1⟩

/-- A handled request keeps what fits its call. -/
theorem Fits.deliver {keys : List K} {owned owned' : Set K} {c : Call K E R}
    {request : Request K} {reply : Option Value} (h : Fits (lockKeys keys) owned c)
    (hmem : request ∈ c.inflight) (hserved : served owned owned' (trySyncLock reply) request) :
    Fits (lockKeys keys) owned' (c.deliver request reply) := by
  cases h with
  | fresh | direct | acquiring | granted | denied | refused | operating | joining =>
    exact absurd hmem List.not_mem_nil
  | @asking a rest key hordered howned =>
    obtain rfl : request = .lock key := by simpa using hmem
    have hdeliver : (⟨.asking a key rest, [.lock key], a.map .locked⟩ : Call K E R).deliver
        (.lock key) reply = ⟨.answered a key rest reply, [], a.map .locked⟩ := by
      simp [Call.deliver]
    rw [hdeliver]
    cases hreply : trySyncLock reply with
    | true =>
      simp only [served, hreply, if_true] at hserved
      refine .granted hordered hreply ?_
      ext k
      simp [hserved, howned, or_comm]
    | false =>
      simp only [served, hreply] at hserved
      exact .denied hordered hreply (hserved.trans howned)
  | releasing h =>
    cases request with
    | lock key => exact .releasing (h.lockServed hmem (served_lock hserved))
    | unlock key =>
      rw [served] at hserved
      exact .releasing (hserved ▸ h.unlockServed (lockKeys_nodup _) hmem)
  | unlocking h hkey =>
    cases request with
    | lock key =>
      refine .unlocking (h.lockServed hmem (served_lock hserved)) fun habsent => ?_
      rw [List.mem_erase_of_ne (by simp)] at habsent
      rcases served_lock hserved with rfl | rfl
      · exact hkey habsent
      · refine fun hin => hkey habsent (hin.resolve_left fun heq => h.lock_lost key hmem ?_)
        exact heq ▸ h.locked_of_sent (by simp)
    | unlock key =>
      rw [served] at hserved
      refine .unlocking (hserved ▸ h.unlockServed (lockKeys_nodup _) hmem) fun habsent => ?_
      rw [hserved]
      rintro ⟨hin, hne⟩
      rw [List.mem_erase_of_ne fun heq => hne (Request.unlock.inj heq)] at habsent
      exact hkey habsent hin
  | finished h hout =>
    cases request with
    | lock key => exact .finished (h.lockServed hmem (served_lock hserved)) hout
    | unlock key =>
      rw [served] at hserved
      exact .finished (hserved ▸ h.unlockServed (lockKeys_nodup _) hmem) hout

end

end FerricStore.MutationLocks
