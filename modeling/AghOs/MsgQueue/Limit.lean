import AghOs.MsgQueue.Dispatch

/-!
# HANDSHAKEs that fail

`case HANDSHAKE` of the server (`server.c`, lines 165–200) takes the slot before it
opens the queue of the client, and does not give it back when that fails.

* `failed_handshakes_iff`: when the failing HANDSHAKEs of a run leave the table as it
  is, and the limit is reached with all clients connected only.
* `limit_without_clients`: 256 failing HANDSHAKEs lock every other client out.
-/

namespace AghOs.MsgQueue.Dispatch

/-- `clients` is not changed by a HANDSHAKE whose queue cannot be opened, and one whose
    queue can be opened finds no slot only if `CLIENT_MAX` clients are connected. -/
def Undisturbed (build : Build) (self : ℤ) (s : State) (x : MsgT × Env) : Prop :=
  messageType x.1.type = some .handshake →
    (x.2.opened = none →
      ∃ o, iterate build self s x.1 x.2 = some o ∧ o.1.clients = s.clients) ∧
    (x.2.opened ≠ none → freeSlot s.clients = none →
      clientMax ≤ (List.finRange clientMax).countP s.connected)

/-- A HANDSHAKE whose queue cannot be opened finds no free slot. -/
def FailsFull (s : State) (x : MsgT × Env) : Prop :=
  messageType x.1.type = some .handshake → x.2.opened = none → freeSlot s.clients = none

section

variable {build : Build} {self : ℤ} {s : State} {m : MsgT} {e : Env} {i : Slot} {o : Outcome}
  {clients : Slot → ClientT}

theorem freeSlot_stopped (h : freeSlot clients = some i) : (clients i).stopped = true :=
  List.find?_some (p := fun i => (clients i).stopped) h

theorem active_of_freeSlot (h : freeSlot clients = none) (i : Slot) :
    (clients i).stopped = false := by
  have hnot := List.find?_eq_none.mp h i (List.mem_finRange i)
  rwa [Bool.not_eq_true] at hnot

theorem freeSlot_eq (hi : (clients i).stopped = true)
    (hlt : ∀ j < i, (clients j).stopped = false) : freeSlot clients = some i := by
  refine List.find?_eq_some_iff_getElem.mpr ⟨hi, i, by simp, by simp, fun j hj => ?_⟩
  rw [List.getElem_finRange]
  simpa using hlt ⟨j, hj.trans i.isLt⟩ hj

theorem sendToClient_state {r : MsgT} (h : sendToClient s r = some o) : o.1 = s := by
  obtain ⟨i, -, rfl⟩ := Option.map_eq_some_iff.mp h
  rfl

/-- What a HANDSHAKE does to the table. -/
theorem handshake_cases (h : handshake build self s m e = some o) :
    o.1 = s ∨ ∃ i c, freeSlot s.clients = some i ∧ c.stopped = false ∧
      o.1.clients = Function.update s.clients i c ∧
      o.1.connected =
        if e.opened = none then s.connected else Function.update s.connected i true := by
  unfold handshake at h
  split at h
  · cases h
    exact .inl rfl
  · rename_i i hfree
    dsimp only at h
    split at h
    · cases h
    · split at h
      · rename_i hopen
        cases h
        exact .inr ⟨i, _, hfree, rfl, rfl, by rw [if_pos hopen]⟩
      · rename_i queue hopen
        rw [sendToClient_state h]
        exact .inr ⟨i, _, hfree, rfl, rfl, by rw [if_neg (by simp [hopen])]⟩

/-- What any other message of an active client does to it. -/
theorem switch_cases (h : switch self s m e i = some o) :
    (o.1.clients = s.clients ∧ o.1.connected = s.connected) ∨ o.1 = stop s i := by
  have hsend : ∀ {r : MsgT}, sendToClient s r = some o →
      o.1.clients = s.clients ∧ o.1.connected = s.connected := fun hr => by
    rw [sendToClient_state hr]
    exact ⟨rfl, rfl⟩
  unfold switch at h
  split at h
  · cases h
    exact .inr rfl
  · obtain ⟨buf, -, h⟩ := Option.bind_eq_some_iff.mp h
    exact .inl (hsend h)
  · obtain ⟨text, -, h⟩ := Option.bind_eq_some_iff.mp h
    obtain ⟨output, -, h⟩ := Option.bind_eq_some_iff.mp h
    obtain ⟨buf, -, h⟩ := Option.bind_eq_some_iff.mp h
    exact .inl (hsend h)
  · obtain ⟨output, -, h⟩ := Option.bind_eq_some_iff.mp h
    obtain ⟨buf, -, h⟩ := Option.bind_eq_some_iff.mp h
    exact .inl (hsend h)
  · cases h
    exact .inl ⟨rfl, rfl⟩
  · exact .inl (hsend h)

/-- What an iteration does to the table. -/
theorem iterate_cases (h : iterate build self s m e = some o) :
    (o.1.clients = s.clients ∧ o.1.connected = s.connected) ∨
    (∃ i c, messageType m.type = some .handshake ∧ freeSlot s.clients = some i ∧
      c.stopped = false ∧ o.1.clients = Function.update s.clients i c ∧
      o.1.connected =
        if e.opened = none then s.connected else Function.update s.connected i true) ∨
    ∃ i, o.1 = stop s i := by
  unfold iterate at h
  split at h
  · rename_i htype
    obtain heq | ⟨i, c, hrest⟩ := handshake_cases h
    · rw [heq]
      exact .inl ⟨rfl, rfl⟩
    · exact .inr (.inl ⟨i, c, htype, hrest⟩)
  · obtain ⟨i, -, h⟩ := Option.bind_eq_some_iff.mp h
    split at h
    · cases h
      exact .inl ⟨rfl, rfl⟩
    · obtain hsame | hstop := switch_cases h
      · exact .inl hsame
      · exact .inr (.inr ⟨i, hstop⟩)

/-- Every active client is connected. -/
def State.Occupied (s : State) : Prop := ∀ i, (s.clients i).stopped = false → s.connected i = true

theorem initial_occupied : State.initial.Occupied := fun _ h => by cases h

theorem State.Occupied.step (hs : s.Occupied) (hfull : FailsFull s (m, e))
    (h : iterate build self s m e = some o) : o.1.Occupied := by
  intro j hj
  obtain ⟨hclients, hconnected⟩ | ⟨i, c, htype, hfree, -, hclients, hconnected⟩ | ⟨i, hstop⟩ :=
    iterate_cases h
  · rw [hclients] at hj
    rw [hconnected]
    exact hs j hj
  · have hopen : e.opened ≠ none := fun hnone => by
      rw [hfull htype hnone] at hfree
      cases hfree
    rw [if_neg hopen] at hconnected
    rw [hclients] at hj
    rw [hconnected]
    by_cases hji : j = i
    · rw [hji, Function.update_self]
    · rw [Function.update_of_ne hji] at hj ⊢
      exact hs j hj
  · rw [hstop, stop] at hj ⊢
    dsimp only at hj ⊢
    by_cases hji : j = i
    · rw [hji, Function.update_self] at hj
      cases hj
    · rw [Function.update_of_ne hji] at hj ⊢
      exact hs j hj

theorem failsFull_of_undisturbed {x : MsgT × Env} (h : Undisturbed build self s x) :
    FailsFull s x := by
  intro htype hopen
  obtain ⟨o, ho, hclients⟩ := (h htype).1 hopen
  by_contra hne
  obtain ⟨i, hfree⟩ := Option.ne_none_iff_exists'.mp hne
  rw [iterate_handshake htype] at ho
  by_cases hpath : build = .posix ∧ x.1.buf.string 0 = none
  · rw [handshake, hfree] at ho
    dsimp only at ho
    rw [if_pos hpath] at ho
    cases ho
  · -- the slot taken was free
    have hset := (handshake_fails self hfree hpath hopen x.2.response).symm.trans ho
    cases hset
    have hactive := freeSlot_stopped hfree
    rw [← hclients] at hactive
    simp only [Function.update_self, Bool.false_eq_true] at hactive

theorem State.Occupied.undisturbed {x : MsgT × Env} (hs : s.Occupied) (hfull : FailsFull s x) :
    Undisturbed build self s x := by
  refine fun htype => ⟨fun hopen => ⟨(s, []), ?_, rfl⟩, fun _ hfree => ?_⟩
  · rw [iterate_handshake htype, handshake, hfull htype hopen]
  · have hall : ∀ i ∈ List.finRange clientMax, s.connected i = true := fun i _ =>
      hs i (active_of_freeSlot hfree i)
    rw [List.countP_eq_length.mpr hall, List.length_finRange]

end

/-- The HANDSHAKEs of a run are as they should be if and only if those that fail come
    while the table is full. -/
theorem failed_handshakes_iff (build : Build) (self : ℤ) (run : List (MsgT × Env)) :
    (server build self).Along (Undisturbed build self) run .initial ↔
      (server build self).Along FailsFull run .initial := by
  refine ⟨Machine.Along.mono fun _ _ => failsFull_of_undisturbed, fun h => ?_⟩
  refine Machine.Along.of_invariant (I := State.Occupied) (fun s x s' hs hfull hn => ?_)
    (fun _ _ hs hfull => hs.undisturbed hfull) initial_occupied h
  obtain ⟨o, ho, rfl⟩ := Option.map_eq_some_iff.mp hn
  exact hs.step hfull ho

/-! ## A table without clients -/

/-- A HANDSHAKE whose queue cannot be opened. -/
def failing : MsgT × Env := (message 1 0, ⟨none, none, message 0 0, 0⟩)

/-- `k` slots have been taken by failing HANDSHAKEs. -/
structure State.Lost (s : State) (k : ℕ) : Prop where
  stopped : ∀ i : Slot, (s.clients i).stopped = true ↔ k ≤ i
  connected : ∀ i, s.connected i = false

theorem State.Lost.step {s : State} {k : ℕ} (h : s.Lost k) (hk : k < clientMax) :
    ∃ s', (server .systemV 7).next s failing = some s' ∧ s'.Lost (k + 1) := by
  have hfree : freeSlot s.clients = some ⟨k, hk⟩ :=
    freeSlot_eq ((h.stopped _).mpr (Nat.le_refl k)) fun j hj => by
      rw [← Bool.not_eq_true, h.stopped j, Nat.not_le]
      exact hj
  have hpath : ¬(Build.systemV = .posix ∧ failing.1.buf.string 0 = none) := fun hp => by
    cases hp.1
  have hnext := congrArg (Option.map Prod.fst)
    (handshake_fails (e := failing.2) 7 hfree hpath rfl (message 0 0))
  refine ⟨_, hnext, fun i => ?_, h.connected⟩
  by_cases hi : i = ⟨k, hk⟩
  · subst hi
    simp
  · dsimp only
    rw [Function.update_of_ne hi, h.stopped i]
    have hne : (i : ℕ) ≠ k := fun he => hi (Fin.ext he)
    omega

theorem State.Lost.run {k : ℕ} : ∀ {j : ℕ} {s : State}, s.Lost j → j + k ≤ clientMax →
    ∃ s', (server .systemV 7).run (List.replicate k failing) s = some s' ∧ s'.Lost (j + k) := by
  induction k with
  | zero => exact fun {j s} h _ => ⟨s, rfl, h⟩
  | succ k ih =>
    intro j s h hle
    obtain ⟨t, ht, hlost⟩ := h.step (by omega)
    obtain ⟨s', hs', hlost'⟩ := ih hlost (by omega)
    refine ⟨s', ?_, by rwa [Nat.add_right_comm, Nat.add_assoc] at hlost'⟩
    rw [List.replicate_succ, Machine.run_cons, ht]
    exact hs'

theorem initial_lost : State.initial.Lost 0 where
  stopped i := iff_of_true rfl (Nat.zero_le i)
  connected _ := rfl

/-- After 256 HANDSHAKEs that failed, the limit is reached, and no client is connected. -/
theorem limit_without_clients :
    (∃ s, (server .systemV 7).run (List.replicate clientMax failing) .initial = some s ∧
      freeSlot s.clients = none ∧ ∀ i, s.connected i = false) ∧
    ¬(server .systemV 7).Along (Undisturbed .systemV 7) [failing] .initial := by
  constructor
  · obtain ⟨s, hs, hlost⟩ := initial_lost.run (k := clientMax) (Nat.zero_add _ ▸ Nat.le_refl _)
    refine ⟨s, hs, List.find?_eq_none.mpr fun i _ hi => ?_, hlost.connected⟩
    have hle := (hlost.stopped i).mp hi
    have hlt := i.isLt
    omega
  · intro h
    have hfull := failsFull_of_undisturbed h.1 (by decide) rfl
    have hfree : freeSlot State.initial.clients = some 0 :=
      freeSlot_eq rfl fun j hj => absurd hj (Nat.not_lt_zero j)
    rw [hfree] at hfull
    cases hfull

end AghOs.MsgQueue.Dispatch
