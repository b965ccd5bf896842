import AghOs.Calc.Effects
import AghOs.Calc.Receive

/-!
# Messages that fit their arrays

`receive_sm` stores as many bytes into `buffer` as the peer says, and
`register_client` copies the name with `strcpy`. Over the server whose slots hold
names of any length: as long as no message that is read is too long, every name
stays inside its `cl_name`, and `strcpy` does what `Clients.occupy` says.

* `ReadsFitting`: the condition, on the steps at which a message is read.
* `Message.over_fits`: what a message needs for it.
* `reachIf_namesFit`: what holds in the runs that meet it.
-/

namespace AghOs.Calc

/-- If `sm` is a REGISTER, the zero that `register_client` writes behind it lies inside
    the buffer, and so does the end of the name. -/
def SocketMessage.NameEnds (sm : SocketMessage) : Prop :=
  sm.type = msgTypeRegister →
    sm.length.toNat < datagramSize ∧ sm.name.length + 1 < datagramSize

instance : DecidablePred SocketMessage.NameEnds := fun _ => inferInstanceAs (Decidable (_ → _))

/-- `sm` lies inside its buffer, and so does what `register_client` makes of it. -/
def SocketMessage.Fits (sm : SocketMessage) : Prop :=
  sm.length.toNat ≤ datagramSize ∧ sm.NameEnds

instance : DecidablePred SocketMessage.Fits := fun _ => inferInstanceAs (Decidable (_ ∧ _))

/-- A message that is not empty fits if it is shorter than the buffer: a name ends at the
    zero that `register_client` writes. -/
theorem Message.over_fits {m : Message} (h : m.data ≠ []) (hlen : m.data.length < datagramSize)
    (old : List UInt8) : (m.over old).Fits := by
  have hpos : 0 < m.data.length := List.length_pos_iff.mpr h
  have hname : (m.over old).name.length ≤ m.data.length - 1 := by
    refine cstring_length_le fun c hc => ?_
    rw [Message.over_length, List.getElem?_drop, Nat.add_sub_cancel' hpos] at hc
    rw [Option.mem_def, List.getElem?_set_self'] at hc
    obtain ⟨-, -, rfl⟩ := Option.map_eq_some_iff.mp hc
    rfl
  rw [SocketMessage.Fits, SocketMessage.NameEnds, Message.over_length]
  exact ⟨hlen.le, fun _ => ⟨hlen, by omega⟩⟩

/-- `register_client` stays inside the arrays, and the name that it copies is the one in
    the message. -/
theorem SocketMessage.NameEnds.registerClient {sm : SocketMessage} (h : sm.NameEnds)
    (htype : sm.type = msgTypeRegister) (hbuf : sm.buffer.length = datagramSize) (cl : Clients) :
    ∃ r, registerClient cl sm = some r ∧ ∀ name, r = .registered name → name = sm.name := by
  obtain ⟨hlen, hname⟩ := h htype
  obtain ⟨r, hr, hdoes⟩ := registerClient_string cl (cstring_zero_notMem _ : 0 ∉ sm.name)
  refine ⟨r, hdoes sm hbuf hlen (cstring_append ?_), hr⟩
  rw [List.length_drop, List.length_set, hbuf]
  exact Nat.lt_sub_of_add_lt hname

theorem SocketMessage.NameEnds.name {sm : SocketMessage} (h : sm.NameEnds)
    (htype : sm.type = msgTypeRegister) : sm.name.length < confClientNameMax := by
  have hname := (h htype).2
  unfold datagramSize at hname
  unfold confClientNameMax
  omega

variable {P : Peer Message} {strtod : List UInt8 → Double × List UInt8} {s s' : State P}
  {l : Label P}

/-- The message that is read next fits. -/
def Pc.ReadsFitting {π : Type} (m : Mem π) (old : List UInt8) : Pc → Prop
  | .receive fd => ∀ p ∈ m.net.recv fd, (p.2.1.over old).Fits
  | _ => True

instance {π : Type} (m : Mem π) (old : List UInt8) : DecidablePred (Pc.ReadsFitting m old)
  | .receive _ => inferInstanceAs (Decidable (∀ p ∈ _, _))
  | .idle => inferInstanceAs (Decidable True)
  | .lookup .. => inferInstanceAs (Decidable True)
  | .dispatch .. => inferInstanceAs (Decidable True)
  | .unregister _ => inferInstanceAs (Decidable True)
  | .check .. => inferInstanceAs (Decidable True)
  | .refuse _ => inferInstanceAs (Decidable True)
  | .insert .. => inferInstanceAs (Decidable True)

/-- No message is read that does not fit. -/
def ReadsFitting (s : State P) : Label P → Prop
  | .receive t (some old) => (s.pc t).ReadsFitting s.mem old
  | _ => True

instance (s : State P) : DecidablePred (ReadsFitting s)
  | .receive _ (some _) => inferInstanceAs (Decidable (Pc.ReadsFitting _ _ _))
  | .receive _ none => inferInstanceAs (Decidable True)
  | .accept .. => inferInstanceAs (Decidable True)
  | .epollWait _ => inferInstanceAs (Decidable True)
  | .thread .. => inferInstanceAs (Decidable True)
  | .pinger _ => inferInstanceAs (Decidable True)
  | .readRequest _ => inferInstanceAs (Decidable True)
  | .main _ => inferInstanceAs (Decidable True)
  | .peer .. => inferInstanceAs (Decidable True)

/-! ## The names that `strcpy` copies -/

/-- The name that a thread is about to register fits `cl_name`. -/
def Pc.NameFits : Pc → Prop
  | .lookup _ _ sm | .dispatch _ _ _ sm =>
    sm.type = msgTypeRegister → sm.name.length < confClientNameMax
  | .check _ sm => sm.name.length < confClientNameMax
  | .insert _ name => name.length < confClientNameMax
  | _ => True

/-- The names in the table and those that the threads have read. -/
structure State.NamesFit (s : State P) : Prop where
  clients : s.mem.clients.Fits
  threads : ∀ t, (s.pc t).NameFits

theorem Goes.nameFits {t : Thread} {pc : Pc} (h : Goes s l t pc) (hc : ReadsFitting s l)
    (ht : (s.pc t).NameFits) : pc.NameFits := by
  have hread : ∀ {u fd conn msg net old}, s.pc u = .receive fd →
      s.mem.net.recv fd = some (conn, msg, net) → ReadsFitting s (.receive u (some old)) →
      (msg.over old).Fits := by
    intro u fd conn msg net old hpc hrecv hc
    simp only [ReadsFitting, hpc] at hc
    exact hc _ hrecv
  cases h with
  | wait _ _ => trivial
  | fail _ => trivial
  | read hpc hrecv => exact (hread hpc hrecv hc).2.name
  | first _ hpc hrecv htype => exact (hread hpc hrecv hc).2.name htype
  | ignore _ _ _ _ => trivial
  | found hpc => rw [hpc] at ht; exact ht
  | register hpc htype => rw [hpc] at ht; exact ht htype
  | unregister _ _ => trivial
  | other _ _ => trivial
  | taken _ _ => trivial
  | free hpc => rw [hpc] at ht; exact ht
  | refused _ => trivial

theorem State.NamesFit.goto {t : Thread} {m : Mem P.State} {pc : Pc} (h : s.NamesFit)
    (hcl : m.clients.Fits) (hpc : pc.NameFits) : (s.goto t m pc).NamesFit := by
  refine ⟨hcl, fun u => ?_⟩
  show (Function.update s.pc t pc u).NameFits
  by_cases hut : u = t
  · rw [hut, Function.update_self]
    exact hpc
  · rw [Function.update_of_ne hut]
    exact h.threads u

theorem Effect.namesFit (heff : Effect s l s') (hc : ReadsFitting s l) (h : s.NamesFit) :
    s'.NamesFit := by
  cases heff with
  | quiet _ hs hpc => exact ⟨h.clients.of_name hs.name, fun t => by rw [hpc]; exact h.threads t⟩
  | @goes l t m pc hs _ hg =>
    exact h.goto (h.clients.of_name hs.name) (hg.nameFits hc (h.threads t))
  | accept _ _ _ => exact h.goto h.clients trivial
  | @insert t ok fd name hpc =>
    have hname := h.threads t
    rw [hpc] at hname
    refine h.goto ?_ trivial
    unfold Mem.insertClient
    split
    · exact h.clients
    · split <;> exact h.clients.occupy hname
  | @unregister t ok client _ =>
    refine h.goto ?_ trivial
    cases client with
    | none => exact h.clients
    | some id => exact h.clients.deactivate id
  | pong _ _ => exact h.goto (h.clients.of_name (Mem.Same.setInactivity _ _ _).name) trivial
  | timeOut _ hm hpc =>
    refine ⟨?_, fun t => by rw [hpc]; exact h.threads t⟩
    rw [hm]
    exact h.clients.deactivate _

/-- As long as every message that is read fits, so do the names in the table, and those
    that the threads have read. -/
theorem reachIf_namesFit (h : (server strtod P).ReachIf ReadsFitting s) : s.NamesFit := by
  refine Machine.ReachIf.invariant (I := State.NamesFit) h (fun s h0 => ?_)
    fun s l s' hI hc hn => (server_effect hn).2.namesFit hc hI
  cases h0
  exact ⟨fun _ => (by decide : 0 < 256), fun _ => trivial⟩

end AghOs.Calc
