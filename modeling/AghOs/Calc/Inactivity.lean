import AghOs.Calc.Server

/-!
# The inactivity limit

`thread_pinger` (`src/cw10/zad1/src/server_pinger.c`, lines 14–48) and
`handle_pong`, with the other changes of the table in between. `config.h` says
that a client is disconnected after 3 `PING`s without a `PONG`; the loop compares
`cl_inactivity` with 3 before it adds to it, and asks for more than 3.

A round of the pinger is one step, and so is what the listener does with a
message. `unanswered` is history: the `PING`s sent to the client in a slot since
it registered or its last `PONG` was handled; one is sent when `send_sm` is
called, whatever comes of it.

* `pingSlot_clients`: a turn of the loop, in the server with its threads.
* `round_deactivates_iff`: a client is disconnected after 4 `PING`s.
* `documented_iff`: the rounds of a run are as documented exactly when every
  client answers before there are 3.
-/

namespace AghOs.Calc

namespace Clients

/-- A turn of the loop of `thread_pinger`, as far as the table is concerned. -/
def pingTurn (cl : Clients) (i : Slot) : Clients :=
  if !(cl i).active then cl
  else if (cl i).inactivity > confInactivityMax then cl.deactivate i
  else cl.setInactivity i ((cl i).inactivity + 1)

/-- The turn sends a `PING`. -/
def pinged (cl : Clients) (i : Slot) : Bool :=
  (cl i).active && (cl i).inactivity ≤ confInactivityMax

/-- The loop of `thread_pinger`. -/
def round (cl : Clients) : Clients := (List.finRange confClientsMax).foldl pingTurn cl

variable {cl : Clients} {i j : Slot}

theorem pingTurn_of_ne (h : i ≠ j) : cl.pingTurn j i = cl i := by
  unfold pingTurn
  split
  · rfl
  · split
    · exact deactivate_of_ne h
    · exact setInactivity_of_ne h

theorem pingTurn_congr {cl' : Clients} (h : cl i = cl' i) :
    cl.pingTurn i i = cl'.pingTurn i i := by
  unfold pingTurn
  rw [h]
  split
  · exact h
  · split
    · simp only [deactivate, Function.update_self, h]
    · simp only [setInactivity, Function.update_self, h]

/-- The turns for other slots leave a slot alone. -/
theorem foldl_pingTurn {is : List Slot} (hnodup : is.Nodup) (cl : Clients) (i : Slot) :
    is.foldl pingTurn cl i = if i ∈ is then cl.pingTurn i i else cl i := by
  induction is generalizing cl with
  | nil => rfl
  | cons j is ih =>
    obtain ⟨hj, his⟩ := List.nodup_cons.mp hnodup
    rw [List.foldl_cons, ih his]
    by_cases hij : i = j
    · subst hij
      rw [if_neg hj, if_pos (List.mem_cons_self ..)]
    · rw [pingTurn_of_ne hij, pingTurn_congr (pingTurn_of_ne hij)]
      simp only [List.mem_cons, hij, false_or]

theorem round_apply (cl : Clients) (i : Slot) : cl.round i = cl.pingTurn i i := by
  unfold round
  rw [foldl_pingTurn (List.nodup_finRange _), if_pos (List.mem_finRange i)]

end Clients

/-- The turn of the server with its threads is the turn on its table. -/
theorem pingSlot_clients {π : Type} {m m' : Mem π} {i : Slot} {ok : Bool}
    (h : m.pingSlot i ok = some m') : m'.clients = m.clients.pingTurn i := by
  unfold Mem.pingSlot at h
  unfold Clients.pingTurn
  split at h
  · cases h
    rw [if_pos ‹_›]
  · rw [if_neg ‹_›]
    split at h
    · cases h
      rw [if_pos ‹_›]
    · rw [if_neg ‹_›]
      unfold Mem.sendSm at h
      split at h
      · obtain ⟨net, -, rfl⟩ := Option.map_eq_some_iff.mp h
        rfl
      · cases h
        rfl

namespace Inactivity

structure State where
  clients : Clients
  unanswered : Slot → ℕ

inductive Event
  /-- `thread_pinger`, between `lock_clients` and `unlock_clients` -/
  | round
  /-- `handle_pong` -/
  | pong (id : Slot)
  /-- `register_client` -/
  | register (sock : ℕ) (name : List UInt8)
  /-- `unregister_client`; `none` is `-1` -/
  | unregister (id : Option Slot)

namespace State

def initial : State := ⟨fun _ => ⟨false, 0, [], 0⟩, fun _ => 0⟩

variable (s : State)

def registerClient (sock : ℕ) (name : List UInt8) : State :=
  if s.clients.isNameTaken name then s
  else
    match s.clients.clientFreeid with
    | none => s
    | some id => ⟨s.clients.occupy id sock name, Function.update s.unanswered id 0⟩

def step : Event → State
  | .round =>
    ⟨s.clients.round,
      fun i => if s.clients.pinged i then s.unanswered i + 1 else s.unanswered i⟩
  | .pong id => ⟨s.clients.setInactivity id 0, Function.update s.unanswered id 0⟩
  | .register sock name => s.registerClient sock name
  | .unregister none => s
  | .unregister (some id) => ⟨s.clients.deactivate id, s.unanswered⟩

/-- `P` holds of every event of a history and the state before it. -/
def Along (P : State → Event → Prop) : State → List Event → Prop
  | _, [] => True
  | s, e :: es => P s e ∧ Along P (s.step e) es

end State

/-- A round disconnects the clients that have left 3 `PING`s unanswered and no
    others, so that there are never more than 3. -/
def Documented (s : State) : Event → Prop
  | .round => ∀ i, (s.clients i).active = true →
      (((s.step .round).clients i).active = false ↔ confInactivityMax ≤ s.unanswered i) ∧
      (((s.step .round).clients i).active = true →
        (s.step .round).unanswered i ≤ confInactivityMax)
  | _ => True

/-- No client has left 3 `PING`s unanswered when a round begins. -/
def Answered (s : State) : Event → Prop
  | .round => ∀ i, (s.clients i).active = true → s.unanswered i < confInactivityMax
  | _ => True

/-- A round disconnects the clients that have left 4 `PING`s unanswered. -/
def AfterFour (s : State) : Event → Prop
  | .round => ∀ i, (s.clients i).active = true →
      (((s.step .round).clients i).active = false ↔ s.unanswered i = confInactivityMax + 1)
  | _ => True

/-- The counter of an active slot is the history, and does not exceed `n`. -/
def State.Counted (s : State) (n : ℕ) : Prop :=
  ∀ i, (s.clients i).active = true →
    (s.clients i).inactivity = s.unanswered i ∧ s.unanswered i ≤ n

section

variable {s : State} {i : Slot} {n : ℕ}

/-- What a round does to a client. -/
theorem round_cases (h : s.Counted n) (hi : (s.clients i).active = true) :
    (s.unanswered i ≤ confInactivityMax ∧
        (s.step .round).clients i =
          { s.clients i with inactivity := (s.clients i).inactivity + 1 } ∧
        (s.step .round).unanswered i = s.unanswered i + 1) ∨
      (confInactivityMax < s.unanswered i ∧ ((s.step .round).clients i).active = false) := by
  obtain ⟨hcount, -⟩ := h i hi
  have hround : (s.step .round).clients i = s.clients.pingTurn i i := Clients.round_apply ..
  rw [hround, ← hcount]
  unfold Clients.pingTurn
  rw [hi]
  by_cases hlimit : (s.clients i).inactivity > confInactivityMax
  · refine .inr ⟨hlimit, ?_⟩
    rw [if_neg (by decide), if_pos hlimit]
    exact Clients.deactivate_self
  · have hle := Nat.le_of_not_lt hlimit
    refine .inl ⟨hle, ?_, ?_⟩
    · rw [if_neg (by decide), if_neg hlimit]
      exact Function.update_self ..
    · have hpinged : s.clients.pinged i = true := by
        simp only [Clients.pinged, hi, Bool.true_and, decide_eq_true_eq]
        exact hle
      rw [hcount]
      exact if_pos hpinged

/-- Rounds, as long as they make the history no longer than `n`. -/
theorem State.Counted.round (h : s.Counted n)
    (hlt : ∀ i, (s.clients i).active = true → s.unanswered i ≤ confInactivityMax →
      s.unanswered i < n) : (s.step .round).Counted n := by
  intro i hi
  have hact : (s.clients i).active = true := by
    by_contra hne
    have hround : (s.step .round).clients i = s.clients.pingTurn i i := Clients.round_apply ..
    rw [hround] at hi
    unfold Clients.pingTurn at hi
    rw [Bool.not_eq_true] at hne
    rw [hne, if_pos (by decide), hne] at hi
    cases hi
  obtain ⟨hle, hclient, hcount⟩ | ⟨-, hoff⟩ := round_cases h hact
  · rw [hclient, hcount, (h i hact).1]
    exact ⟨rfl, hlt i hact hle⟩
  · rw [hoff] at hi
    cases hi

/-- What changes in one slot only has to be looked at there. -/
theorem State.Counted.of_slot {s' : State} {id : Slot} (h : s.Counted n)
    (hclient : ∀ i, i ≠ id → s'.clients i = s.clients i)
    (hcount : ∀ i, i ≠ id → s'.unanswered i = s.unanswered i)
    (hid : (s'.clients id).active = true →
      (s'.clients id).inactivity = s'.unanswered id ∧ s'.unanswered id ≤ n) : s'.Counted n := by
  intro i hi
  by_cases hne : i = id
  · exact hne ▸ hid (hne ▸ hi)
  · rw [hclient i hne] at hi ⊢
    rw [hcount i hne]
    exact h i hi

/-- The other events leave the history of a slot alone, or begin it anew. -/
theorem State.Counted.other (h : s.Counted n) {e : Event} (he : e ≠ .round) :
    (s.step e).Counted n := by
  cases e with
  | round => exact absurd rfl he
  | pong id =>
    refine h.of_slot (fun i hne => Clients.setInactivity_of_ne hne)
      (fun i hne => Function.update_of_ne hne ..) fun _ => ?_
    simp only [State.step, Clients.setInactivity, Function.update_self]
    exact ⟨trivial, Nat.zero_le n⟩
  | register sock name =>
    simp only [State.step, State.registerClient]
    split
    · exact h
    · cases s.clients.clientFreeid with
      | none => exact h
      | some id =>
        refine h.of_slot (fun i hne => Clients.occupy_of_ne hne)
          (fun i hne => Function.update_of_ne hne ..) fun _ => ?_
        dsimp only
        rw [Clients.occupy_self, Function.update_self]
        exact ⟨rfl, Nat.zero_le n⟩
  | unregister id =>
    cases id with
    | none => exact h
    | some id =>
      refine h.of_slot (fun i hne => Clients.deactivate_of_ne hne) (fun _ _ => rfl) fun hoff => ?_
      simp only [State.step, Clients.deactivate_self] at hoff
      cases hoff

theorem initial_counted (n : ℕ) : State.initial.Counted n := fun _ hi => by cases hi

theorem afterFour_round (h : s.Counted (confInactivityMax + 1)) : AfterFour s .round := by
  intro i hi
  have hle := (h i hi).2
  obtain ⟨hlt, hclient, -⟩ | ⟨hgt, hoff⟩ := round_cases h hi
  · rw [hclient, hi]
    exact iff_of_false (fun h => by cases h) (by omega)
  · exact iff_of_true hoff (by omega)

/-- In every run the rounds disconnect the clients that have left 4 `PING`s
    unanswered, which is the most. -/
theorem round_deactivates_iff (es : List Event) : State.Along AfterFour State.initial es := by
  suffices hrun : ∀ s : State, s.Counted (confInactivityMax + 1) → State.Along AfterFour s es from
    hrun _ (initial_counted _)
  induction es with
  | nil => exact fun _ _ => trivial
  | cons e es ih =>
    intro s hs
    by_cases he : e = .round
    · subst he
      exact ⟨afterFour_round hs, ih _ (hs.round fun _ _ hle => Nat.lt_succ_of_le hle)⟩
    · refine ⟨?_, ih _ (hs.other he)⟩
      cases e with
      | round => exact absurd rfl he
      | _ => trivial

/-- A round, when no client has left more than 3 `PING`s unanswered. -/
theorem documented_round_iff (h : s.Counted confInactivityMax) :
    Documented s .round ↔ Answered s .round := by
  refine forall₂_congr fun i hi => ?_
  have hle := (h i hi).2
  obtain ⟨-, hclient, hcount⟩ | ⟨hgt, -⟩ := round_cases h hi
  · rw [hclient, hcount]
    simp only [hi]
    constructor
    · rintro ⟨-, hmost⟩
      exact hmost trivial
    · intro hlt
      exact ⟨iff_of_false (by simp) (by omega), fun _ => hlt⟩
  · omega

/-- The rounds of a run are as documented exactly when none of them finds a client
    with 3 `PING`s unanswered. -/
theorem documented_iff (es : List Event) :
    State.Along Documented State.initial es ↔ State.Along Answered State.initial es := by
  suffices hrun : ∀ s : State, s.Counted confInactivityMax →
      (State.Along Documented s es ↔ State.Along Answered s es) from hrun _ (initial_counted _)
  induction es with
  | nil => exact fun _ _ => Iff.rfl
  | cons e es ih =>
    intro s hs
    by_cases he : e = .round
    · subst he
      unfold State.Along
      rw [documented_round_iff hs]
      exact and_congr_right fun hans => ih _ (hs.round fun i hi _ => hans i hi)
    · have hother : Documented s e ↔ Answered s e := by
        cases e with
        | round => exact absurd rfl he
        | _ => exact Iff.rfl
      unfold State.Along
      rw [hother]
      exact and_congr_right fun _ => ih _ (hs.other he)

end

/-- A client that never answers gets a fourth `PING`. -/
theorem fourth_ping :
    let es := .register 5 [97] :: List.replicate 4 .round
    ((es.foldl State.step .initial).clients 0).active = true ∧
      (es.foldl State.step .initial).unanswered 0 = 4 ∧
      ¬State.Along Documented .initial es := by
  refine ⟨by decide +kernel, by decide +kernel, fun h => ?_⟩
  obtain ⟨-, -, -, -, hround, -⟩ := h
  exact absurd ((hround 0 (by decide +kernel)).2 (by decide +kernel)) (by decide +kernel)

end Inactivity

end AghOs.Calc
