import AghOs.Calc.Client
import AghOs.Calc.Lengths

/-!
# The names of the clients

`register_client` looks the name up in one region and takes a slot for it in a
second one. Another thread can take a slot for the same name in between.

* `same_name`: two clients with one name, registered on the two accept threads.
* `names_unique`: if every message that is read fits, and no active slot has the
  name when a `register_client` enters its second region, the names are pairwise
  distinct, and a REGISTER whose name is found taken is refused.
* `not_distinct_of_insert`: otherwise the names are not distinct after it.
-/

namespace AghOs.Calc

variable {P : Peer Message} {strtod : List UInt8 → Double × List UInt8}

/-- A step that only changes counters takes no slot. -/
theorem Mem.Same.shrinks {m m' : Mem P.State} (h : m.Same m') : m.clients.Shrinks m'.clients :=
  fun i hi => ⟨by rw [← h.active, hi], h.name i⟩

theorem insertClient_clients {m : Mem P.State} {fd : ℕ} {name : List UInt8} {id : Slot}
    (hid : m.clients.clientFreeid = some id) :
    (m.insertClient fd name).clients = m.clients.occupy id fd name := by
  unfold Mem.insertClient
  rw [hid]
  simp only
  split <;> rfl

/-- A slot is taken in the second region of `register_client` only. -/
theorem server_clients {s s' : State P} {l : Label P}
    (h : (server strtod P).next s l = some s') :
    s.mem.clients.Shrinks s'.mem.clients ∨ ∃ t ok fd name id, l = .thread t ok ∧
      s.pc t = .insert fd name ∧ s.mem.clients.clientFreeid = some id ∧
      s'.mem.clients = s.mem.clients.occupy id fd name := by
  obtain ⟨-, heff⟩ := server_effect h
  cases heff with
  | quiet _ hs _ => exact .inl hs.shrinks
  | goes hs _ _ => exact .inl hs.shrinks
  | accept _ _ _ => exact .inl (.refl _)
  | @insert t ok fd name hpc =>
    show s.mem.clients.Shrinks (s.mem.insertClient fd name).clients ∨ _
    cases hid : s.mem.clients.clientFreeid with
    | none =>
      have hm : s.mem.insertClient fd name = s.mem := by
        unfold Mem.insertClient
        rw [hid]
      rw [hm]
      exact .inl (.refl _)
    | some id => exact .inr ⟨t, ok, fd, name, id, rfl, hpc, rfl, insertClient_clients hid⟩
  | @unregister t ok client _ =>
    cases client with
    | none => exact .inl (.refl _)
    | some id => exact .inl (s.mem.clients.shrinks_deactivate id)
  | pong _ _ => exact .inl (s.mem.clients.shrinks_setInactivity _ 0)
  | @timeOut _ i _ _ hm _ =>
    rw [hm]
    exact .inl (s.mem.clients.shrinks_deactivate i)

/-- A thread at the second region of `register_client` has a name that no active
    slot has. -/
def Pc.nameFree (cl : Clients) : Pc → Bool
  | .insert _ name => !cl.isNameTaken name
  | _ => true

/-- A `register_client` enters its second region only while no active slot has
    its name. -/
def NameStillFree (s : State P) : Label P → Prop
  | .thread t _ => (s.pc t).nameFree s.mem.clients = true
  | _ => True

instance (s : State P) : DecidablePred (NameStillFree s)
  | .thread _ _ => inferInstanceAs (Decidable (_ = true))
  | .accept .. => inferInstanceAs (Decidable True)
  | .epollWait _ => inferInstanceAs (Decidable True)
  | .receive .. => inferInstanceAs (Decidable True)
  | .pinger _ => inferInstanceAs (Decidable True)
  | .readRequest _ => inferInstanceAs (Decidable True)
  | .main _ => inferInstanceAs (Decidable True)
  | .peer .. => inferInstanceAs (Decidable True)

/-- Moreover every message that is read fits. -/
def RegistersSafely (s : State P) (l : Label P) : Prop := NameStillFree s l ∧ ReadsFitting s l

instance (s : State P) : DecidablePred (RegistersSafely s) :=
  fun _ => inferInstanceAs (Decidable (_ ∧ _))

theorem reachIf_distinct {s : State P} (h : (server strtod P).ReachIf NameStillFree s) :
    s.mem.clients.Distinct := by
  refine Machine.ReachIf.invariant (I := fun s : State P => s.mem.clients.Distinct) h
    (fun s h0 => ?_) fun s l s' hI hok hn => ?_
  · cases h0
    intro i j hi
    cases hi
  · obtain hs | ⟨t, ok, fd, name, id, rfl, hpc, -, hcl⟩ := server_clients hn
    · exact hI.mono hs
    · rw [hcl]
      exact hI.occupy (by simpa [NameStillFree, hpc, Pc.nameFree] using hok)

theorem server_thread {s s' : State P} {t : Thread} {ok : Bool}
    (h : (server strtod P).next s (.thread t ok) = some s') :
    ∃ m pc, threadStep s.mem s.pinger.isSome ok (s.pc t) = some (m, pc) ∧ s' = s.goto t m pc := by
  simp only [server] at h
  split at h
  · cases h
  · obtain ⟨⟨m, pc⟩, hm, rfl⟩ := Option.map_eq_some_iff.mp h
    exact ⟨m, pc, hm, rfl⟩

/-- A second region entered while an active slot has the name, and with a slot
    free, makes two active slots of one name. -/
theorem not_distinct_of_insert {s s' : State P} {t : Thread} {ok : Bool} {fd : ℕ}
    {name : List UInt8} {id : Slot} (hpc : s.pc t = .insert fd name)
    (hid : s.mem.clients.clientFreeid = some id)
    (hname : s.mem.clients.isNameTaken name = true)
    (hn : (server strtod P).next s (.thread t ok) = some s') : ¬s'.mem.clients.Distinct := by
  obtain ⟨m, pc, hm, rfl⟩ := server_thread hn
  rw [hpc, threadStep] at hm
  split at hm <;> cases hm
  have hcl : (s.mem.insertClient fd name).clients = s.mem.clients.occupy id fd name :=
    insertClient_clients hid
  simpa only [State.goto, hcl] using Clients.not_distinct_occupy hid hname

/-- `is_name_taken` finds the name taken: nothing changes but the thread, which
    goes on to refuse the client. -/
theorem check_taken {s s' : State P} {t : Thread} {ok : Bool} {fd : ℕ} {sm : SocketMessage}
    (hpc : s.pc t = .check fd sm) (hname : s.mem.clients.isNameTaken sm.name = true)
    (hn : (server strtod P).next s (.thread t ok) = some s') :
    s' = s.goto t s.mem (.refuse fd) := by
  obtain ⟨m, pc, hm, rfl⟩ := server_thread hn
  rw [hpc, threadStep] at hm
  rw [if_pos hname] at hm
  split at hm <;> cases hm
  rfl

/-- The refusal leaves the table as it is, and if the send succeeds, the client
    has `MSG_TYPE_NAMEINUSE` to read. -/
theorem refuse_step {s s' : State P} {t : Thread} {ok : Bool} {fd : ℕ}
    (hpc : s.pc t = .refuse fd) (hn : (server strtod P).next s (.thread t ok) = some s') :
    s'.mem.clients = s.mem.clients ∧ (ok = true → ∃ c, s.mem.net.fd fd = some c ∧
      s'.mem.net.toClient c =
        s.mem.net.toClient c ++ [(typeMessage msgTypeNameInUse).message]) := by
  obtain ⟨m, pc, hm, rfl⟩ := server_thread hn
  rw [hpc] at hm
  obtain ⟨m', hm', hp⟩ := Option.map_eq_some_iff.mp hm
  cases hp
  refine ⟨(Mem.Same.sendSm hm').2, fun hok => ?_⟩
  subst hok
  obtain ⟨net, hnet, rfl⟩ := Option.map_eq_some_iff.mp hm'
  obtain ⟨c, hc, -, -, hcl⟩ := Net.send_eq hnet
  exact ⟨c, hc, by simp [State.goto, hcl]⟩

/-- As long as every message that is read fits, and no `register_client` enters its
    second region while an active slot has its name: the names are inside their
    `cl_name`, those of the active slots are distinct, and a REGISTER whose name is
    taken changes nothing and is answered with `MSG_TYPE_NAMEINUSE`. -/
theorem names_unique {s : State P} (h : (server strtod P).ReachIf RegistersSafely s) :
    s.mem.clients.Fits ∧ s.mem.clients.Distinct ∧
      (∀ t ok fd sm s', s.pc t = .check fd sm → s.mem.clients.isNameTaken sm.name = true →
        (server strtod P).next s (.thread t ok) = some s' →
          s' = s.goto t s.mem (.refuse fd)) ∧
      ∀ t ok fd s', s.pc t = .refuse fd → (server strtod P).next s (.thread t ok) = some s' →
        s'.mem.clients = s.mem.clients ∧ (ok = true → ∃ c, s.mem.net.fd fd = some c ∧
          s'.mem.net.toClient c =
            s.mem.net.toClient c ++ [(typeMessage msgTypeNameInUse).message]) :=
  ⟨(reachIf_namesFit (h.mono fun _ _ => And.right)).clients,
    reachIf_distinct (h.mono fun _ _ => And.left),
    fun _ _ _ _ _ hpc hname hn => check_taken hpc hname hn,
    fun _ _ _ _ hpc hn => refuse_step hpc hn⟩

/-! ### Two clients with one name -/

/-- A client connects as connection `conn`, with the name `"a"`; accept thread
    `t` reads its REGISTER. -/
def connectA (t : Thread) (fd conn : ℕ) : List (Label (client Arith.zero)) :=
  [.accept t fd conn [97], .peer conn ⟨[], 0⟩ (.send true), .receive t (some [])]

/-- The second of two clients with one name is refused. -/
theorem names_unique_refused :
    ∃ s : State (client Arith.zero),
      (server (fun _ => (0, [])) (client Arith.zero)).ReachIf RegistersSafely s ∧
        s.mem.clients.Distinct ∧ (s.mem.clients 0).active = true ∧
        ∀ ok s', (server (fun _ => (0, [])) (client Arith.zero)).next s
          (.thread .threadLocal ok) = some s' → s' = s.goto .threadLocal s.mem (.refuse 6) := by
  obtain ⟨s, hr, hs⟩ := Machine.ReachIf.of_runIf
    (M := server (fun _ => (0, [])) (client Arith.zero)) (C := RegistersSafely)
    (connectA .threadNet 5 0 ++ [.thread .threadNet true, .thread .threadNet true] ++
      connectA .threadLocal 6 1)
    (fun s => ((s.mem.clients 0).active, s.pc .threadLocal, s.mem.clients.isNameTaken [97]))
    (true, .check 6 (registerMessage [97]), true) rfl rfl
  simp only [Prod.mk.injEq] at hs
  obtain ⟨h0, hpc, hname⟩ := hs
  have h := names_unique hr
  exact ⟨s, hr, h.2.1, h0, fun ok s' hn => h.2.2.1 .threadLocal ok 6 _ s' hpc hname hn⟩

/-- Both accept threads find the name free, and both take a slot. -/
theorem same_name :
    ∃ s : State (client Arith.zero),
      (server (fun _ => (0, [])) (client Arith.zero)).Reach s ∧ ¬s.mem.clients.Distinct := by
  obtain ⟨s, hr, hs⟩ := Machine.Reach.of_run
    (M := server (fun _ => (0, [])) (client Arith.zero))
    (connectA .threadNet 5 0 ++ connectA .threadLocal 6 1 ++
      [.thread .threadNet true, .thread .threadLocal true, .thread .threadNet true,
        .thread .threadLocal true])
    (fun s => ((s.mem.clients 0).active, (s.mem.clients 0).name, (s.mem.clients 1).active,
      (s.mem.clients 1).name)) (true, [97], true, [97]) rfl rfl
  simp only [Prod.mk.injEq] at hs
  obtain ⟨h0, hn0, h1, hn1⟩ := hs
  exact ⟨s, hr, fun hd => absurd (hd 0 1 h0 h1 (hn0.trans hn1.symm)) (by decide)⟩

end AghOs.Calc
