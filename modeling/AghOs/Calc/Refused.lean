import AghOs.Calc.Epoll
import AghOs.Calc.Lengths

/-!
# Connections that get no slot

`thread_accept` gives a connection up when `receive_sm` fails, when the first
message is not a REGISTER, when the name is taken and when no slot is free. It
closes the connection on none of these paths.

* `givesUp_step`: a connection that is given up stays open, and the table of
  clients is as it was.
* `connections_have_slots`: if no connection is given up, and no slot a second
  time, and every message fits, the open connections are those of the active slots
  whenever the threads wait.
* `refused_stays_open`: a connection whose first message fails.
-/

namespace AghOs.Calc

variable {P : Peer Message} {strtod : List UInt8 → Double × List UInt8} {s s' : State P}
  {l : Label P}

/-- The message that is read next is no REGISTER. -/
def Pc.readsOther {π : Type} (m : Mem π) (old : List UInt8) : Pc → Bool
  | .receive fd =>
    match m.net.recv fd with
    | some (_, msg, _) => (msg.over old).type != msgTypeRegister
    | none => false
  | _ => false

/-- `register_client` is about to refuse the client, or to find no slot. -/
def Pc.refuses {π : Type} (m : Mem π) : Pc → Bool
  | .check _ sm => m.clients.isNameTaken sm.name
  | .refuse _ => true
  | .insert _ _ => m.clients.clientFreeid.isNone
  | _ => false

/-- An accept thread gives a connection up. -/
def givesUp (s : State P) : Label P → Bool
  | .receive t none => t != .listener
  | .receive t (some old) => t != .listener && (s.pc t).readsOther s.mem old
  | .thread t _ => t != .listener && (s.pc t).refuses s.mem
  | _ => false

/-- No connection is given up, and no slot a second time whose descriptor is open
    again, and no message is read that does not fit. -/
def Served (s : State P) (l : Label P) : Prop :=
  givesUp s l = false ∧ (l.Meets fun t => (s.pc t).notStale s.mem = true) ∧ ReadsFitting s l

instance (s : State P) : DecidablePred (Served s) :=
  fun l => inferInstanceAs (Decidable (_ ∧ l.Meets _ ∧ _))

/-! ## What becomes of a connection that is given up -/

/-- The connection is still open afterwards, and the table is as it was. -/
theorem givesUp_step (hn : (server strtod P).next s l = some s') (hg : givesUp s l = true) :
    s'.mem.net.fd = s.mem.net.fd ∧ s'.mem.clients = s.mem.clients := by
  obtain ⟨-, heff⟩ := server_effect hn
  cases heff with
  | @goes l t m pc hs hcl _ => exact ⟨hs.fd, hcl⟩
  | @insert t ok fd name hpc =>
    simp only [givesUp, hpc, Pc.refuses, Bool.and_eq_true] at hg
    have hnone := Option.isNone_iff_eq_none.mp hg.2
    show (s.mem.insertClient fd name).net.fd = _ ∧ (s.mem.insertClient fd name).clients = _
    unfold Mem.insertClient
    rw [hnone]
    exact ⟨rfl, rfl⟩
  | unregister hpc => simp [givesUp, hpc, Pc.refuses] at hg
  | pong hpc _ => simp [givesUp, hpc, Pc.refuses] at hg
  | accept _ _ _ => cases hg
  | timeOut _ _ _ => cases hg
  | @quiet l s' hactor hs hpc =>
    cases l with
    | receive t old => cases hactor
    | thread t ok => cases hactor
    | _ => cases hg

/-! ## Where the open connections are -/

section

variable {π : Type} {m m' : Mem π} {fd : ℕ} {id : Slot}

/-- `fd` is the socket of an active slot. -/
def Mem.HasSlot (m : Mem π) (fd : ℕ) : Prop :=
  ∃ i, (m.clients i).active = true ∧ (m.clients i).sock = fd

theorem Mem.HasSlot.of_same (h : m.HasSlot fd) (hs : m.Same m') : m'.HasSlot fd := by
  obtain ⟨i, hi, hsock⟩ := h
  exact ⟨i, by rw [hs.active, hi], by rw [hs.sock, hsock]⟩

theorem Mem.HasSlot.unregister (h : m.HasSlot fd) (hfd : fd ≠ (m.clients id).sock) :
    (m.unregisterClient (some id)).HasSlot fd := by
  obtain ⟨i, hi, hsock⟩ := h
  have hne : i ≠ id := by
    intro he
    rw [he] at hsock
    exact hfd hsock.symm
  have hsame : m.clients.deactivate id i = m.clients i := Clients.deactivate_of_ne hne
  refine ⟨i, ?_, ?_⟩
  · show (m.clients.deactivate id i).active = true
    rw [hsame, hi]
  · show (m.clients.deactivate id i).sock = fd
    rw [hsame, hsock]

/-- A slot that is taken was free. -/
theorem Mem.HasSlot.occupy {sock : ℕ} {name : List UInt8} (hid : m.clients.clientFreeid = some id)
    (hm : m'.clients = m.clients.occupy id sock name) :
    m'.HasSlot sock ∧ ∀ fd, m.HasSlot fd → m'.HasSlot fd := by
  refine ⟨⟨id, ?_, ?_⟩, fun fd ⟨i, hi, hsock⟩ => ?_⟩
  · rw [hm, Clients.occupy_self]
  · rw [hm, Clients.occupy_self]
  · have hne : i ≠ id := by
      intro he
      rw [he, Clients.clientFreeid_some hid] at hi
      cases hi
    refine ⟨i, ?_, ?_⟩
    · rw [hm, Clients.occupy_of_ne hne, hi]
    · rw [hm, Clients.occupy_of_ne hne, hsock]

end

/-- Where an accept thread is that has not given its connection up. -/
def Pc.registering : Pc → Bool
  | .idle | .receive _ | .check .. | .insert .. => true
  | _ => false

/-- An accept thread handles `fd`. -/
def State.InHand (s : State P) (fd : ℕ) : Prop :=
  ∃ t, t ≠ .listener ∧ (s.pc t).handled = some fd

/-- Every open connection has a slot or is in the hands of an accept thread. -/
structure State.Kept (s : State P) : Prop where
  registering : ∀ t, t ≠ .listener → (s.pc t).registering = true
  kept : ∀ fd, s.mem.net.fd fd ≠ none → s.mem.HasSlot fd ∨ s.InHand fd

section

variable {m : Mem P.State} {t : Thread} {pc : Pc} {fd : ℕ}

theorem Goes.registering (h : Goes s l t pc) (hserved : givesUp s l = false)
    (hreg : (s.pc t).registering = true) (ht : t ≠ .listener) :
    pc.registering = true ∧ ∀ fd, (s.pc t).handled = some fd → pc.handled = some fd := by
  have hne : (t != .listener) = true := by simpa using ht
  cases h with
  | wait _ _ => exact absurd rfl ht
  | fail _ =>
    simp only [givesUp, hne] at hserved
    cases hserved
  | read _ _ => exact absurd rfl ht
  | first _ hpc _ _ => rw [hpc]; exact ⟨rfl, fun _ hfd => hfd⟩
  | ignore _ hpc hrecv htype =>
    simp [givesUp, hne, hpc, Pc.readsOther, hrecv, htype] at hserved
  | found hpc => rw [hpc] at hreg; cases hreg
  | register hpc _ => rw [hpc] at hreg; cases hreg
  | unregister hpc _ => rw [hpc] at hreg; cases hreg
  | other hpc _ => rw [hpc] at hreg; cases hreg
  | taken hpc hname => simp [givesUp, hne, hpc, Pc.refuses, hname] at hserved
  | free hpc => rw [hpc]; exact ⟨rfl, fun _ hfd => hfd⟩
  | refused hpc => rw [hpc] at hreg; cases hreg

/-- Thread `t` goes on at `pc`. -/
theorem State.Kept.goto (h : s.Kept) (hreg : t ≠ .listener → pc.registering = true)
    (hkept : ∀ fd, m.net.fd fd ≠ none →
      (s.mem.net.fd fd ≠ none ∧ (s.mem.HasSlot fd → m.HasSlot fd) ∧
      (t ≠ .listener → (s.pc t).handled = some fd → m.HasSlot fd ∨ pc.handled = some fd)) ∨
        (t ≠ .listener ∧ pc.handled = some fd)) : (s.goto t m pc).Kept := by
  have hpc : (s.goto t m pc).pc t = pc := Function.update_self ..
  have hpcs : ∀ u, u ≠ t → (s.goto t m pc).pc u = s.pc u := fun u hu => Function.update_of_ne hu ..
  refine ⟨fun u hu => ?_, fun fd hfd => ?_⟩
  · by_cases hut : u = t
    · subst hut
      rw [hpc]
      exact hreg hu
    · rw [hpcs u hut]
      exact h.registering u hu
  · obtain ⟨hopen, hslot, hself⟩ | ⟨ht, hnew⟩ := hkept fd hfd
    · obtain hs | ⟨u, hu, hfu⟩ := h.kept fd hopen
      · exact .inl (hslot hs)
      · by_cases hut : u = t
        · subst hut
          obtain hs | hs := hself hu hfu
          · exact .inl hs
          · exact .inr ⟨u, hu, by rw [hpc, hs]⟩
        · exact .inr ⟨u, hu, by rw [hpcs u hut, hfu]⟩
    · exact .inr ⟨t, ht, by rw [hpc, hnew]⟩

/-- The threads stay where they are. -/
theorem State.Kept.of_pc (h : s.Kept) (hpc : s'.pc = s.pc)
    (hkept : ∀ fd, s'.mem.net.fd fd ≠ none →
      s.mem.net.fd fd ≠ none ∧ (s.mem.HasSlot fd → s'.mem.HasSlot fd)) : s'.Kept := by
  refine ⟨fun t ht => ?_, fun fd hfd => ?_⟩
  · rw [hpc]
    exact h.registering t ht
  · obtain ⟨hopen, hslot⟩ := hkept fd hfd
    obtain hs | ⟨t, ht, hft⟩ := h.kept fd hopen
    · exact .inl (hslot hs)
    · exact .inr ⟨t, ht, by rw [hpc, hft]⟩

/-- What is open when a slot has been given up. -/
theorem unregister_kept {id : Slot} (hfd : (m.unregisterClient (some id)).net.fd fd ≠ none) :
    m.net.fd fd ≠ none ∧ (m.HasSlot fd → (m.unregisterClient (some id)).HasSlot fd) := by
  obtain ⟨c, hc⟩ := Option.ne_none_iff_exists'.mp hfd
  obtain ⟨hne, hopen⟩ := unregister_open hc
  refine ⟨?_, fun hs => hs.unregister hne⟩
  rw [hopen]
  exact Option.some_ne_none c

theorem State.Kept.accept {net : Net Message P.State} {c : ℕ} {q : P.State} (h : s.Kept)
    (ht : t ≠ .listener) (hpc : s.pc t = .idle) (hn : s.mem.net.accept fd c q = some net) :
    (s.goto t { s.mem with net := net } (.receive fd)).Kept := by
  obtain ⟨-, -, hnet, -, -⟩ := accept_spec hn
  refine h.goto (fun _ => rfl) fun fd' hfd => ?_
  change net.fd fd' ≠ none at hfd
  rw [hnet] at hfd
  by_cases hff : fd' = fd
  · rw [hff]
    exact .inr ⟨ht, rfl⟩
  · rw [Function.update_of_ne hff] at hfd
    refine .inl ⟨hfd, fun hs => hs, fun _ hself => ?_⟩
    rw [hpc] at hself
    cases hself

theorem State.Kept.insert {name : List UInt8} {ok : Bool} (h : s.Kept)
    (hpc : s.pc t = .insert fd name) (hserved : givesUp s (.thread t ok) = false)
    (he : (s.mem.insertClient fd name).exited = false) :
    (s.goto t (s.mem.insertClient fd name) .idle).Kept := by
  refine h.goto (fun _ => rfl) fun fd' hfd => .inl ?_
  obtain ⟨hnone, hm⟩ | ⟨hexit, -, -⟩ | ⟨id, hid, -, hm⟩ := insertClient_cases s.mem fd name
  · rw [hm] at hfd ⊢
    refine ⟨hfd, fun hs => hs, fun ht _ => ?_⟩
    have hne : (t != .listener) = true := by simpa using ht
    simp [givesUp, hpc, Pc.refuses, hnone, hne] at hserved
  · rw [hexit] at he
    cases he
  · have hcl : (s.mem.insertClient fd name).clients = s.mem.clients.occupy id fd name := by rw [hm]
    rw [show (s.mem.insertClient fd name).net.fd = s.mem.net.fd by rw [hm]] at hfd
    refine ⟨hfd, (Mem.HasSlot.occupy hid hcl).2 fd', fun _ hself => .inl ?_⟩
    rw [hpc] at hself
    obtain rfl : fd = fd' := Option.some.inj hself
    exact (Mem.HasSlot.occupy hid hcl).1

theorem Effect.kept (h : Effect s l s') (hk : s.Kept) (hc : Served s l)
    (he : s'.mem.exited = false) : s'.Kept := by
  cases h with
  | quiet _ hs hpc =>
    refine hk.of_pc hpc fun fd hfd => ⟨?_, fun hslot => hslot.of_same hs⟩
    rwa [hs.fd] at hfd
  | @goes l t m pc hs _ hg =>
    refine hk.goto (fun ht => (hg.registering hc.1 (hk.registering t ht) ht).1)
      fun fd hfd => .inl ?_
    refine ⟨?_, fun hslot => hslot.of_same hs, fun ht hself => .inr ?_⟩
    · rwa [hs.fd] at hfd
    · exact (hg.registering hc.1 (hk.registering t ht) ht).2 fd hself
  | accept ht hpc hn => exact hk.accept ht hpc hn
  | insert hpc => exact hk.insert hpc hc.1 he
  | @unregister t ok client hpc =>
    have hlistener : t = .listener := by
      by_contra ht
      have hreg := hk.registering t ht
      rw [hpc] at hreg
      cases hreg
    subst hlistener
    refine hk.goto (fun _ => rfl) fun fd hfd => .inl ?_
    cases client with
    | none => exact ⟨hfd, fun hs => hs, fun ht => absurd rfl ht⟩
    | some id =>
      obtain ⟨hopen, hslot⟩ := unregister_kept hfd
      exact ⟨hopen, hslot, fun ht => absurd rfl ht⟩
  | @pong t ok fd conn id sm hpc _ =>
    refine hk.goto (fun _ => rfl) fun fd' hfd => .inl ⟨hfd, fun hs => ?_, fun ht _ => ?_⟩
    · exact hs.of_same (.setInactivity _ _ _)
    · have hreg := hk.registering t ht
      rw [hpc] at hreg
      cases hreg
  | timeOut _ hm hpc =>
    refine hk.of_pc hpc fun fd hfd => ?_
    rw [hm] at hfd ⊢
    exact unregister_kept hfd

end

/-- As long as no connection is given up, and no slot a second time whose
    descriptor is open again, and every message that is read fits: no name overruns
    its `cl_name`, and while the threads wait, the open connections are those of the
    active slots. A connection that is given up leaves the table as
    it was, but it stays open. -/
theorem connections_have_slots (h : (server strtod P).ReachIf Served s) :
    s.mem.clients.Fits ∧
    (s.mem.exited = false → (∀ t, s.pc t = .idle) →
      ∀ fd, s.mem.net.fd fd ≠ none ↔ ∃ i, (s.mem.clients i).active = true ∧
        (s.mem.clients i).sock = fd) ∧
    ∀ l s', givesUp s l = true → (server strtod P).next s l = some s' →
      s'.mem.net.fd = s.mem.net.fd ∧ s'.mem.clients = s.mem.clients := by
  have hinv : s.mem.exited = false → s.mem.SlotsPolled ∧ s.Kept := by
    refine Machine.ReachIf.invariant
      (I := fun s : State P => s.mem.exited = false → s.mem.SlotsPolled ∧ s.Kept) h
      (fun s h0 => ?_) fun s l s' hI hc hn he' => ?_
    · cases h0
      exact fun _ => ⟨Mem.initial_slotsPolled, fun _ _ => rfl, fun _ hfd => absurd rfl hfd⟩
    · obtain ⟨he, heff⟩ := server_effect hn
      obtain ⟨hp, hk⟩ := hI he
      refine ⟨heff.slotsPolled hp (fun t ok hl => ?_) he', heff.kept hk hc he'⟩
      subst hl
      exact hc.2.1
  refine ⟨(reachIf_namesFit (h.mono fun _ _ hc => hc.2.2)).clients,
    fun he hidle fd => ⟨fun hfd => ?_, fun ⟨i, hi, hsock⟩ => ?_⟩,
    fun l s' hg hn => givesUp_step hn hg⟩
  · obtain hslot | ⟨t, -, hft⟩ := (hinv he).2.kept fd hfd
    · exact hslot
    · rw [hidle t] at hft
      cases hft
  · rw [← hsock]
    exact (hinv he).1.fd i hi

/-- One client unregisters, another one stays. -/
theorem connections_have_slots_two :
    ∃ s : State anyPeer, (server (fun _ => (0, [])) anyPeer).ReachIf Served s ∧
      (∀ fd, s.mem.net.fd fd ≠ none ↔ ∃ i, (s.mem.clients i).active = true ∧
        (s.mem.clients i).sock = fd) ∧
      (s.mem.clients 0).active = false ∧ (s.mem.clients 1).active = true := by
  obtain ⟨s, hr, hs⟩ := Machine.ReachIf.of_runIf
    (M := server (fun _ => (0, [])) anyPeer) (C := Served)
    (registers 5 0 [97] ++ registers 6 1 [98] ++ handles 5 0 (typeMessage msgTypeUnregister) 3)
    (fun s => (s.mem.exited, s.pc .threadNet, s.pc .threadLocal, s.pc .listener,
      (s.mem.clients 0).active, (s.mem.clients 1).active))
    (false, .idle, .idle, .idle, false, true) rfl rfl
  simp only [Prod.mk.injEq] at hs
  obtain ⟨he, hnet, hlocal, hlistener, h0, h1⟩ := hs
  have hidle : ∀ t, s.pc t = .idle := by
    intro t
    cases t with
    | threadNet => exact hnet
    | threadLocal => exact hlocal
    | listener => exact hlistener
  exact ⟨s, hr, (connections_have_slots hr).2.1 he hidle, h0, h1⟩

/-- `receive_sm` fails for a new connection: it stays open, and nobody has it. -/
theorem refused_stays_open :
    ∃ s : State anyPeer, (server (fun _ => (0, [])) anyPeer).Reach s ∧ s.mem.exited = false ∧
      (∀ t, s.pc t = .idle) ∧ s.pinger = none ∧ s.mem.net.fd 5 ≠ none ∧
      ∀ i, (s.mem.clients i).active = false := by
  obtain ⟨s, hr, hs⟩ := Machine.Reach.of_run (M := server (fun _ => (0, [])) anyPeer)
    [.accept .threadNet 5 0 (), .receive .threadNet none]
    (fun s => (s.mem.exited, s.pc .threadNet, s.pc .threadLocal, s.pc .listener,
      s.pinger, s.mem.net.fd 5, fun i => (s.mem.clients i).active))
    (false, .idle, .idle, .idle, none, some 0, fun _ => false) rfl rfl
  simp only [Prod.mk.injEq] at hs
  obtain ⟨he, hnet, hlocal, hlistener, hping, hfd, hcl⟩ := hs
  refine ⟨s, hr, he, fun t => ?_, hping, ?_, fun i => congrFun hcl i⟩
  · cases t with
    | threadNet => exact hnet
    | threadLocal => exact hlocal
    | listener => exact hlistener
  · rw [hfd]
    exact Option.some_ne_none 0

end AghOs.Calc
