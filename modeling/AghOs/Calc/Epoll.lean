import AghOs.Calc.Client
import AghOs.Calc.Effects

/-!
# The polled set

`add_to_poll` exits when `epoll_ctl` fails, and `epoll_ctl` fails for a
descriptor that is not open or is polled already.

* `Mem.SlotsPolled`: the socket of every active slot is open, polled and no other
  slot's. Every step keeps it, unless `unregister_client` closes the descriptor
  of a slot that is not active any more (`Effect.slotsPolled`).
* `server_stays_up`: if also the listener never takes a slot, the server does
  not exit.
* `second_register`: a client that registers twice ends the server.
-/

namespace AghOs.Calc

/-! ## The sockets of the active slots -/

section

variable {π : Type}

/-- The active slots have open, polled sockets, each its own. -/
structure Mem.SlotsPolled (m : Mem π) : Prop where
  distinct : ∀ i j, (m.clients i).active = true → (m.clients j).active = true →
    (m.clients i).sock = (m.clients j).sock → i = j
  fd : ∀ i, (m.clients i).active = true → m.net.fd (m.clients i).sock ≠ none
  polled : ∀ i, (m.clients i).active = true → m.net.polled (m.clients i).sock = true
  isOpen : ∀ fd, m.net.polled fd = true → m.net.fd fd ≠ none

/-- A descriptor that can be added to the polled set. -/
def Mem.Addable (m : Mem π) (fd : ℕ) : Prop := m.net.fd fd ≠ none ∧ m.net.polled fd = false

/-- `unregister_client` is not about to close the descriptor of a slot that has
    been given up: the slot is active, or the descriptor is not open. -/
def Pc.notStale (m : Mem π) : Pc → Bool
  | .unregister (some id) => (m.clients id).active || (m.net.fd (m.clients id).sock).isNone
  | _ => true

/-- `register_client` is not about to take a slot. -/
def Pc.takesNoSlot (m : Mem π) : Pc → Bool
  | .insert _ _ => m.clients.clientFreeid.isNone
  | _ => true

variable {m m' : Mem π} {fd : ℕ} {id : Slot}

theorem Mem.SlotsPolled.of_same (h : m.SlotsPolled) (hs : m.Same m') : m'.SlotsPolled := by
  refine ⟨fun i j hi hj hij => ?_, fun i hi => ?_, fun i hi => ?_, fun fd hfd => ?_⟩
  · rw [hs.active] at hi hj
    rw [hs.sock, hs.sock] at hij
    exact h.distinct i j hi hj hij
  · rw [hs.active] at hi
    rw [hs.fd, hs.sock]
    exact h.fd i hi
  · rw [hs.active] at hi
    rw [hs.polled, hs.sock]
    exact h.polled i hi
  · rw [hs.polled] at hfd
    rw [hs.fd]
    exact h.isOpen fd hfd

theorem Mem.Addable.of_same (h : m.Addable fd) (hs : m.Same m') : m'.Addable fd := by
  unfold Addable at h ⊢
  rwa [hs.fd, hs.polled]

theorem Mem.SlotsPolled.accept {net : Net Message π} {c : ℕ} {q : π} (h : m.SlotsPolled)
    (hn : m.net.accept fd c q = some net) : { m with net := net }.SlotsPolled := by
  obtain ⟨hfree, -, hfd, hpolled, -⟩ := accept_spec hn
  have hkeep : ∀ fd', m.net.fd fd' ≠ none → net.fd fd' ≠ none := by
    intro fd' hopen
    rw [hfd, Function.update_of_ne]
    · exact hopen
    · intro he
      exact hopen (he ▸ hfree)
  refine ⟨h.distinct, fun i hi => hkeep _ (h.fd i hi), fun i hi => ?_, fun fd' hfd' => ?_⟩
  · show net.polled _ = true
    rw [hpolled]
    exact h.polled i hi
  · change net.polled fd' = true at hfd'
    rw [hpolled] at hfd'
    exact hkeep _ (h.isOpen fd' hfd')

/-- What is open after a slot has been given up. -/
theorem unregister_open {c : ℕ} (h : (m.unregisterClient (some id)).net.fd fd = some c) :
    fd ≠ (m.clients id).sock ∧ m.net.fd fd = some c := by
  change Function.update m.net.fd _ none fd = some c at h
  by_cases hfs : fd = (m.clients id).sock
  · rw [hfs, Function.update_self] at h
    cases h
  · rw [Function.update_of_ne hfs] at h
    exact ⟨hfs, h⟩

/-- A slot is given up that was active, or whose descriptor was not open. -/
theorem Mem.SlotsPolled.unregister (h : m.SlotsPolled)
    (hid : (m.clients id).active = true ∨ m.net.fd (m.clients id).sock = none) :
    (m.unregisterClient (some id)).SlotsPolled := by
  have hactive : ∀ i, (m.clients.deactivate id i).active = true →
      i ≠ id ∧ (m.clients i).active = true ∧ m.clients.deactivate id i = m.clients i := by
    intro i hi
    have hne : i ≠ id := by
      intro he
      subst he
      rw [Clients.deactivate_self] at hi
      cases hi
    have hsame : m.clients.deactivate id i = m.clients i := Clients.deactivate_of_ne hne
    rw [hsame] at hi
    exact ⟨hne, hi, hsame⟩
  -- the sockets of the other active slots are not the one that is closed
  have hother : ∀ i, i ≠ id → (m.clients i).active = true →
      (m.clients i).sock ≠ (m.clients id).sock := by
    intro i hne hi he
    obtain hid | hid := hid
    · exact hne (h.distinct i id hi hid he)
    · exact h.fd i hi (he ▸ hid)
  refine ⟨fun i j hi hj hij => ?_, fun i hi => ?_, fun i hi => ?_, fun fd hfd => ?_⟩
  · obtain ⟨-, hi, hei⟩ := hactive i hi
    obtain ⟨-, hj, hej⟩ := hactive j hj
    change (m.clients.deactivate id i).sock = (m.clients.deactivate id j).sock at hij
    rw [hei, hej] at hij
    exact h.distinct i j hi hj hij
  · obtain ⟨hne, hi, hei⟩ := hactive i hi
    show Function.update m.net.fd _ none (m.clients.deactivate id i).sock ≠ none
    rw [hei, Function.update_of_ne (hother i hne hi)]
    exact h.fd i hi
  · obtain ⟨hne, hi, hei⟩ := hactive i hi
    show Function.update m.net.polled _ false (m.clients.deactivate id i).sock = true
    rw [hei, Function.update_of_ne (hother i hne hi)]
    exact h.polled i hi
  · change Function.update m.net.polled _ false fd = true at hfd
    show Function.update m.net.fd _ none fd ≠ none
    by_cases hfs : fd = (m.clients id).sock
    · rw [hfs, Function.update_self] at hfd
      cases hfd
    · rw [Function.update_of_ne hfs] at hfd ⊢
      exact h.isOpen fd hfd

/-- `register_client` finds no slot, or exits, or takes a free slot and adds the
    descriptor to the polled set. -/
theorem insertClient_cases (m : Mem π) (fd : ℕ) (name : List UInt8) :
    (m.clients.clientFreeid = none ∧ m.insertClient fd name = m) ∨
    ((m.insertClient fd name).exited = true ∧ (m.insertClient fd name).net = m.net ∧
      ¬m.Addable fd) ∨
    ∃ id, m.clients.clientFreeid = some id ∧ m.Addable fd ∧ m.insertClient fd name =
      { m with
        clients := m.clients.occupy id fd name
        net := { m.net with polled := Function.update m.net.polled fd true } } := by
  unfold Mem.insertClient
  cases m.clients.clientFreeid with
  | none => exact .inl ⟨rfl, rfl⟩
  | some id =>
    refine .inr ?_
    unfold Net.poll Mem.Addable
    by_cases hadd : m.net.fd fd = none ∨ m.net.polled fd = true
    · simp only [if_pos hadd]
      refine .inl ⟨trivial, trivial, fun ⟨hopen, hpolled⟩ => ?_⟩
      obtain hfd | hfd := hadd
      · exact hopen hfd
      · rw [hpolled] at hfd
        cases hfd
    · simp only [if_neg hadd]
      push Not at hadd
      exact .inr ⟨id, rfl, ⟨hadd.1, Bool.eq_false_iff.mpr hadd.2⟩, rfl⟩

/-- `register_client` opens and closes nothing. -/
theorem insertClient_net (m : Mem π) (fd : ℕ) (name : List UInt8) :
    (m.insertClient fd name).net.fd = m.net.fd ∧
      (m.insertClient fd name).net.conn = m.net.conn := by
  obtain ⟨-, hm⟩ | ⟨-, hm, -⟩ | ⟨id, -, -, hm⟩ := insertClient_cases m fd name
  · rw [hm]
    exact ⟨rfl, rfl⟩
  · rw [hm]
    exact ⟨rfl, rfl⟩
  · rw [hm]
    exact ⟨rfl, rfl⟩

theorem Mem.SlotsPolled.insert {name : List UInt8} (h : m.SlotsPolled)
    (he : (m.insertClient fd name).exited = false) : (m.insertClient fd name).SlotsPolled := by
  obtain ⟨-, hm⟩ | ⟨hexit, -⟩ | ⟨id, -, hadd, hm⟩ := insertClient_cases m fd name
  · rw [hm]
    exact h
  · rw [hexit] at he
    cases he
  · have hother : ∀ i, (m.clients i).active = true → (m.clients i).sock ≠ fd := by
      intro i hi hsock
      have hp := h.polled i hi
      rw [hsock, hadd.2] at hp
      cases hp
    rw [hm]
    refine ⟨Clients.occupy_apart Client.sock h.distinct hother, fun i => ?_, fun i => ?_,
      fun fd' => ?_⟩
    · show (m.clients.occupy id fd name i).active = true →
        m.net.fd (m.clients.occupy id fd name i).sock ≠ none
      intro hi
      by_cases hii : i = id
      · rw [hii, Clients.occupy_self]
        exact hadd.1
      · rw [Clients.occupy_of_ne hii] at hi ⊢
        exact h.fd i hi
    · show (m.clients.occupy id fd name i).active = true →
        Function.update m.net.polled fd true (m.clients.occupy id fd name i).sock = true
      intro hi
      by_cases hii : i = id
      · rw [hii, Clients.occupy_self, Function.update_self]
      · rw [Clients.occupy_of_ne hii] at hi ⊢
        rw [Function.update_of_ne (hother i hi)]
        exact h.polled i hi
    · show Function.update m.net.polled fd true fd' = true → m.net.fd fd' ≠ none
      intro hfd
      by_cases hff : fd' = fd
      · rw [hff]
        exact hadd.1
      · rw [Function.update_of_ne hff] at hfd
        exact h.isOpen fd' hfd

end

/-! ## The server stays up -/

variable {P : Peer Message} {strtod : List UInt8 → Double × List UInt8} {s s' : State P}
  {l : Label P}

theorem Mem.initial_slotsPolled : (State.initial : State P).mem.SlotsPolled :=
  ⟨fun _ _ hi => (by cases hi), fun _ hi => (by cases hi), fun _ hi => (by cases hi),
    fun _ hi => (by cases hi)⟩

/-- A slot that is not stale can be given up. -/
theorem Pc.active_or_closed {m : Mem P.State} {id : Slot}
    (h : (Pc.unregister (some id)).notStale m = true) :
    (m.clients id).active = true ∨ m.net.fd (m.clients id).sock = none := by
  simpa [Pc.notStale] using h

theorem Effect.slotsPolled (h : Effect s l s') (hp : s.mem.SlotsPolled)
    (hstale : ∀ t ok, l = .thread t ok → (s.pc t).notStale s.mem = true)
    (he : s'.mem.exited = false) : s'.mem.SlotsPolled := by
  cases h with
  | quiet _ hs _ => exact hp.of_same hs
  | goes hs _ _ => exact hp.of_same hs
  | accept _ _ hn => exact hp.accept hn
  | insert _ => exact hp.insert he
  | @unregister t ok client hpc =>
    cases client with
    | none => exact hp
    | some id =>
      have hnot := hstale t ok rfl
      rw [hpc] at hnot
      exact hp.unregister (Pc.active_or_closed hnot)
  | pong _ _ => exact hp.of_same (.setInactivity _ _ _)
  | timeOut hi hm _ =>
    rw [hm]
    exact hp.unregister (.inl hi)

/-- Where a thread can be that accepts connections. -/
def Pc.accepting : Pc → Bool
  | .lookup .. | .dispatch .. | .unregister _ => false
  | _ => true

/-- The descriptor of the connection that an accept thread handles. -/
def Pc.handled : Pc → Option ℕ
  | .receive fd | .check fd _ | .refuse fd | .insert fd _ => some fd
  | _ => none

/-- The accept threads handle connections that are open, not polled and each
    its own. -/
structure State.HandsOk (s : State P) : Prop where
  accepting : ∀ t, t ≠ .listener → (s.pc t).accepting = true
  addable : ∀ t fd, t ≠ .listener → (s.pc t).handled = some fd → s.mem.Addable fd
  apart : ∀ t u fd, t ≠ .listener → u ≠ .listener → (s.pc t).handled = some fd →
    (s.pc u).handled = some fd → t = u

/-- The listener does not take a slot, and no slot is given up a second time
    whose descriptor is open again. -/
def StaysUp (s : State P) (l : Label P) : Prop :=
  l.Meets fun t => (s.pc t).notStale s.mem = true ∧
    (t = .listener → (s.pc t).takesNoSlot s.mem = true)

instance (s : State P) : DecidablePred (StaysUp s) :=
  fun l => inferInstanceAs (Decidable (l.Meets _))

section

variable {m : Mem P.State} {t : Thread} {pc : Pc} {fd : ℕ}

/-- Closing the socket of a slot leaves what an accept thread handles open. -/
theorem Mem.Addable.unregister {id : Slot} (h : m.Addable fd) (hp : m.SlotsPolled)
    (hid : (m.clients id).active = true ∨ m.net.fd (m.clients id).sock = none) :
    (m.unregisterClient (some id)).Addable fd := by
  have hne : fd ≠ (m.clients id).sock := by
    intro he
    obtain hid | hid := hid
    · have hpolled := hp.polled id hid
      rw [← he, h.2] at hpolled
      cases hpolled
    · exact h.1 (he ▸ hid)
  refine ⟨?_, ?_⟩
  · show Function.update m.net.fd _ none fd ≠ none
    rw [Function.update_of_ne hne]
    exact h.1
  · show Function.update m.net.polled _ false fd = false
    rw [Function.update_of_ne hne]
    exact h.2

theorem Goes.handled (h : Goes s l t pc) (hacc : (s.pc t).accepting = true) (ht : t ≠ .listener) :
    pc.accepting = true ∧ (pc.handled = none ∨ pc.handled = (s.pc t).handled) := by
  cases h with
  | wait _ _ => exact absurd rfl ht
  | fail _ => exact ⟨rfl, .inl rfl⟩
  | read _ _ => exact absurd rfl ht
  | first _ hpc _ _ => rw [hpc]; exact ⟨rfl, .inr rfl⟩
  | ignore _ _ _ _ => exact ⟨rfl, .inl rfl⟩
  | found hpc => rw [hpc] at hacc; cases hacc
  | register hpc _ => rw [hpc] at hacc; cases hacc
  | unregister hpc _ => rw [hpc] at hacc; cases hacc
  | other _ _ => exact ⟨rfl, .inl rfl⟩
  | taken hpc _ => rw [hpc]; exact ⟨rfl, .inr rfl⟩
  | free hpc => rw [hpc]; exact ⟨rfl, .inr rfl⟩
  | refused _ => exact ⟨rfl, .inl rfl⟩

/-- Thread `t` goes on at `pc`: what the other threads handle stays open and not
    polled, and what `t` handles is open, not polled and its own. -/
theorem State.HandsOk.goto (h : s.HandsOk) (hacc : t ≠ .listener → pc.accepting = true)
    (hother : ∀ u fd, u ≠ .listener → u ≠ t → (s.pc u).handled = some fd → m.Addable fd)
    (hself : ∀ fd, t ≠ .listener → pc.handled = some fd →
      m.Addable fd ∧ ∀ u, u ≠ .listener → u ≠ t → (s.pc u).handled ≠ some fd) :
    (s.goto t m pc).HandsOk := by
  have hpc : (s.goto t m pc).pc t = pc := Function.update_self ..
  have hpcs : ∀ u, u ≠ t → (s.goto t m pc).pc u = s.pc u := fun u hu => Function.update_of_ne hu ..
  refine ⟨fun u hu => ?_, fun u fd hu hfd => ?_, fun u v fd hu hv hfu hfv => ?_⟩
  · by_cases hut : u = t
    · subst hut
      rw [hpc]
      exact hacc hu
    · rw [hpcs u hut]
      exact h.accepting u hu
  · by_cases hut : u = t
    · subst hut
      rw [hpc] at hfd
      exact (hself fd hu hfd).1
    · rw [hpcs u hut] at hfd
      exact hother u fd hu hut hfd
  · by_cases hut : u = t <;> by_cases hvt : v = t
    · rw [hut, hvt]
    · subst hut
      rw [hpc] at hfu
      rw [hpcs v hvt] at hfv
      exact absurd hfv ((hself fd hu hfu).2 v hv hvt)
    · subst hvt
      rw [hpc] at hfv
      rw [hpcs u hut] at hfu
      exact absurd hfu ((hself fd hv hfv).2 u hu hut)
    · rw [hpcs u hut] at hfu
      rw [hpcs v hvt] at hfv
      exact h.apart u v fd hu hv hfu hfv

/-- The threads stay where they are, and what they handle stays open and not
    polled. -/
theorem State.HandsOk.of_pc (h : s.HandsOk) (hpc : s'.pc = s.pc)
    (hadd : ∀ fd, s.mem.Addable fd → s'.mem.Addable fd) : s'.HandsOk := by
  refine ⟨fun t ht => ?_, fun t fd ht hfd => ?_, fun t u fd ht hu => ?_⟩
  · rw [hpc]
    exact h.accepting t ht
  · rw [hpc] at hfd
    exact hadd fd (h.addable t fd ht hfd)
  · rw [hpc]
    exact h.apart t u fd ht hu

theorem State.HandsOk.goes (h : s.HandsOk) (hs : s.mem.Same m) (hg : Goes s l t pc) :
    (s.goto t m pc).HandsOk := by
  refine h.goto (fun ht => (hg.handled (h.accepting t ht) ht).1)
    (fun u fd hu _ hfd => (h.addable u fd hu hfd).of_same hs) fun fd ht hfd => ?_
  obtain hnone | hsame := (hg.handled (h.accepting t ht) ht).2
  · rw [hnone] at hfd
    cases hfd
  · rw [hsame] at hfd
    exact ⟨(h.addable t fd ht hfd).of_same hs,
      fun u hu hut hfu => hut (h.apart u t fd hu ht hfu hfd)⟩

theorem State.HandsOk.accept {net : Net Message P.State} {c : ℕ} {q : P.State} (h : s.HandsOk)
    (hp : s.mem.SlotsPolled) (hn : s.mem.net.accept fd c q = some net) :
    (s.goto t { s.mem with net := net } (.receive fd)).HandsOk := by
  obtain ⟨hfree, -, hnet, hpolled, -⟩ := accept_spec hn
  have hnew : net.fd fd ≠ none := by
    rw [hnet, Function.update_self]
    exact Option.some_ne_none c
  have hkeep : ∀ fd', fd' = fd ∨ s.mem.net.fd fd' ≠ none → s.mem.net.polled fd' = false →
      { s.mem with net := net }.Addable fd' := by
    intro fd' hopen hunpolled
    refine ⟨?_, ?_⟩
    · show net.fd fd' ≠ none
      by_cases hff : fd' = fd
      · rw [hff]
        exact hnew
      · rw [hnet, Function.update_of_ne hff]
        exact hopen.resolve_left hff
    · show net.polled fd' = false
      rw [hpolled, hunpolled]
  refine h.goto (fun _ => rfl) (fun u fd' hu _ hfd => ?_) fun fd' _ hfd => ?_
  · obtain ⟨hopen, hunpolled⟩ := h.addable u fd' hu hfd
    exact hkeep fd' (.inr hopen) hunpolled
  · obtain rfl : fd = fd' := Option.some.inj hfd
    refine ⟨hkeep fd (.inl rfl) ?_, fun u hu _ hfu => (h.addable u fd hu hfu).1 hfree⟩
    exact Bool.eq_false_iff.mpr fun hpoll => hp.isOpen fd hpoll hfree

theorem Mem.Addable.insert {name : List UInt8} {fd' : ℕ} (h : m.Addable fd')
    (hfd : m.clients.clientFreeid = none ∨ fd' ≠ fd) : (m.insertClient fd name).Addable fd' := by
  obtain ⟨-, hm⟩ | ⟨-, hm, -⟩ | ⟨id, hid, -, hm⟩ := insertClient_cases m fd name
  · rw [hm]
    exact h
  · unfold Addable
    rw [hm]
    exact h
  · obtain hnone | hne := hfd
    · rw [hnone] at hid
      cases hid
    · rw [hm]
      refine ⟨h.1, ?_⟩
      show Function.update m.net.polled fd true fd' = false
      rw [Function.update_of_ne hne]
      exact h.2

theorem State.HandsOk.insert {name : List UInt8} {ok : Bool} (h : s.HandsOk)
    (hpc : s.pc t = .insert fd name) (hc : StaysUp s (.thread t ok)) :
    (s.goto t (s.mem.insertClient fd name) .idle).HandsOk := by
  refine h.goto (fun _ => rfl) (fun u fd' hu hut hfd => ?_) fun fd' _ hfd => (by cases hfd)
  apply (h.addable u fd' hu hfd).insert
  by_cases ht : t = .listener
  · have hno := hc.2 ht
    rw [hpc] at hno
    exact .inl (Option.isNone_iff_eq_none.mp hno)
  · refine .inr fun hff => hut (h.apart u t fd' hu ht hfd ?_)
    rw [hpc, hff]
    rfl

theorem Effect.handsOk (h : Effect s l s') (hp : s.mem.SlotsPolled) (hh : s.HandsOk)
    (hc : StaysUp s l) : s'.HandsOk := by
  cases h with
  | quiet _ hs hpc => exact hh.of_pc hpc fun fd hfd => hfd.of_same hs
  | goes hs _ hg => exact hh.goes hs hg
  | accept _ _ hn => exact hh.accept hp hn
  | insert hpc => exact hh.insert hpc hc
  | @unregister t ok client hpc =>
    have hnot := hc.1
    rw [hpc] at hnot
    cases client with
    | none =>
      exact hh.goto (fun _ => rfl) (fun u fd hu _ => hh.addable u fd hu)
        fun _ _ hfd => (by cases hfd)
    | some id =>
      exact hh.goto (fun _ => rfl)
        (fun u fd hu _ hfd => (hh.addable u fd hu hfd).unregister hp (Pc.active_or_closed hnot))
        fun _ _ hfd => (by cases hfd)
  | pong _ _ =>
    exact hh.goto (fun _ => rfl)
      (fun u fd hu _ hfd => (hh.addable u fd hu hfd).of_same (.setInactivity _ _ _))
      fun _ _ hfd => (by cases hfd)
  | timeOut hi hm hpc =>
    refine hh.of_pc hpc fun fd hfd => ?_
    rw [hm]
    exact hfd.unregister hp (.inl hi)

/-- Only `register_client` can exit, and not with a descriptor that can be
    added. -/
theorem Effect.exited (h : Effect s l s') (hh : s.HandsOk) (hc : StaysUp s l)
    (he : s.mem.exited = false) : s'.mem.exited = false := by
  cases h with
  | quiet _ hs _ => rw [hs.exited, he]
  | goes hs _ _ => exact hs.exited.trans he
  | accept _ _ _ => exact he
  | @insert t ok fd name hpc =>
    show (s.mem.insertClient fd name).exited = false
    obtain ⟨-, hm⟩ | ⟨-, -, hnot⟩ | ⟨id, -, -, hm⟩ := insertClient_cases s.mem fd name
    · rw [hm, he]
    · by_cases ht : t = .listener
      · have hno := hc.2 ht
        rw [hpc] at hno
        unfold Mem.insertClient
        rw [Option.isNone_iff_eq_none.mp hno]
        exact he
      · refine absurd (hh.addable t fd ht ?_) hnot
        rw [hpc]
        rfl
    · rw [hm, he]
  | @unregister t ok client _ =>
    cases client with
    | none => exact he
    | some id => exact he
  | pong _ _ => exact he
  | timeOut _ hm _ => rw [hm]; exact he

end

/-- As long as the listener takes no slot and no slot is given up a second time
    whose descriptor is open again, the server does not exit, and the active
    slots have sockets of their own. -/
theorem server_stays_up (h : (server strtod P).ReachIf StaysUp s) :
    s.mem.exited = false ∧ ∀ i j, (s.mem.clients i).active = true →
      (s.mem.clients j).active = true → (s.mem.clients i).sock = (s.mem.clients j).sock →
        i = j := by
  have hinv : s.mem.exited = false ∧ s.mem.SlotsPolled ∧ s.HandsOk := by
    refine Machine.ReachIf.invariant
      (I := fun s : State P => s.mem.exited = false ∧ s.mem.SlotsPolled ∧ s.HandsOk) h
      (fun s h0 => ?_) fun s l s' hI hc hn => ?_
    · cases h0
      exact ⟨rfl, Mem.initial_slotsPolled, fun _ _ => rfl, fun _ _ _ hfd => (by cases hfd),
        fun _ _ _ _ _ hfd => (by cases hfd)⟩
    · obtain ⟨he, hp, hh⟩ := hI
      obtain ⟨-, heff⟩ := server_effect hn
      have he' := heff.exited hh hc he
      refine ⟨he', heff.slotsPolled hp (fun t ok hl => ?_) he', heff.handsOk hp hh hc⟩
      subst hl
      exact hc.1
  exact ⟨hinv.1, hinv.2.1.distinct⟩

/-- A slot taken for a descriptor that cannot be added ends the server. -/
theorem exits_of_insert {t : Thread} {ok : Bool} {fd : ℕ} {name : List UInt8}
    (hpc : s.pc t = .insert fd name) (hfree : s.mem.clients.clientFreeid ≠ none)
    (hfd : ¬s.mem.Addable fd) (hn : (server strtod P).next s (.thread t ok) = some s') :
    s'.mem.exited = true := by
  obtain ⟨-, heff⟩ := server_effect hn
  cases heff with
  | quiet hactor _ _ => cases hactor
  | goes _ _ hg => cases hg <;> simp_all
  | @insert _ _ fd' name' hpc' =>
    obtain ⟨rfl, rfl⟩ := Pc.insert.inj (hpc.symm.trans hpc')
    show (s.mem.insertClient fd name).exited = true
    obtain ⟨hnone, -⟩ | ⟨hexit, -, -⟩ | ⟨id, -, hadd, -⟩ := insertClient_cases s.mem fd name
    · exact absurd hnone hfree
    · exact hexit
    · exact absurd hadd hfd
  | unregister hpc' => rw [hpc] at hpc'; cases hpc'
  | pong hpc' _ => rw [hpc] at hpc'; cases hpc'

/-! ### A client that registers twice -/

/-- A peer that sends any messages, whatever it is sent. -/
def anyPeer : Peer Message where
  State := Unit
  Start := Unit
  Choice := Message
  start _ := ()
  recv _ _ _ := some ()
  send _ m := some (m, fun _ => ())
  internal _ _ := none

/-- Connection `conn` is accepted as `fd`, and registers with the name `name`. -/
def registers (fd conn : ℕ) (name : List UInt8) : List (Label anyPeer) :=
  [.accept .threadNet fd conn (), .peer conn (registerMessage name).message (.send true),
    .receive .threadNet (some []), .thread .threadNet true, .thread .threadNet true]

/-- Connection `conn` sends `sm` on `fd`, and the listener handles it in `n`
    steps after `receive_sm`. -/
def handles (fd conn : ℕ) (sm : SocketMessage) (n : ℕ) : List (Label anyPeer) :=
  [.peer conn sm.message (.send true), .epollWait fd, .receive .listener (some [])] ++
    List.replicate n (.thread .listener true)

/-- Two clients register, the first one unregisters, and a third one gets its
    descriptor and its slot. -/
theorem server_stays_up_three :
    ∃ s : State anyPeer, (server (fun _ => (0, [])) anyPeer).ReachIf StaysUp s ∧
      s.mem.exited = false ∧ (s.mem.clients 0).name = [99] ∧ (s.mem.clients 1).name = [98] ∧
      (s.mem.clients 0).sock ≠ (s.mem.clients 1).sock := by
  obtain ⟨s, hr, hs⟩ := Machine.ReachIf.of_runIf
    (M := server (fun _ => (0, [])) anyPeer) (C := StaysUp)
    (registers 5 0 [97] ++ registers 6 1 [98] ++ handles 5 0 (typeMessage msgTypeUnregister) 3 ++
      registers 5 2 [99])
    (fun s => ((s.mem.clients 0).active, (s.mem.clients 0).name, (s.mem.clients 1).active,
      (s.mem.clients 1).name)) (true, [99], true, [98]) rfl rfl
  simp only [Prod.mk.injEq] at hs
  obtain ⟨h0, hn0, h1, hn1⟩ := hs
  have hup := server_stays_up hr
  exact ⟨s, hr, hup.1, hn0, hn1, fun hsock => absurd (hup.2 0 1 h0 h1 hsock) (by decide)⟩

/-- A second REGISTER with another name: the listener takes a slot for a socket
    that is polled already, and the server exits. -/
theorem second_register :
    ∃ s : State anyPeer, (server (fun _ => (0, [])) anyPeer).Reach s ∧ s.mem.exited = true := by
  obtain ⟨s, hr, hs⟩ := Machine.Reach.of_run (M := server (fun _ => (0, [])) anyPeer)
    (registers 5 0 [97] ++ handles 5 0 (registerMessage [98]) 4) (fun s => s.mem.exited) true
    rfl rfl
  exact ⟨s, hr, hs⟩

end AghOs.Calc
