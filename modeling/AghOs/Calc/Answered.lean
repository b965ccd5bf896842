import AghOs.Calc.Channels

/-!
# Requests that are answered

* `State.Steady.next`: the invariant of the calm runs, by the kind of the step.
* `all_answered`: what is printed and what is under way answers all requests, on each
  connection in their order. When nothing is under way, the ids `0, 1, ...` of the
  requests have been printed, each once.
-/

namespace AghOs.Calc

variable {A : Arith} {strtod : List UInt8 → Double × List UInt8}

section

variable {s s' : State (client A)} {l : Label (client A)}

/-! ## The steps -/

theorem serving_touches {n' : Net Message ClientPc} {d : ℕ} (h : s.Steady A)
    (ht : Touches d s.mem.net n')
    (hd : ∀ fd, s.mem.net.fd fd = some d → s.mem.net.polled fd = true →
      (channel n' d).Serving) (fd c : ℕ) (hfd : n'.fd fd = some c)
    (hpoll : n'.polled fd = true) : (channel n' c).Serving := by
  rw [ht.fd] at hfd
  rw [ht.polled] at hpoll
  by_cases hcd : c = d
  · subst hcd
    exact hd fd hfd hpoll
  · rw [ht.other c hcd]
    exact h.serving fd c hfd hpoll

theorem State.Steady.peer {c : ℕ} {x : Unset} {a : Act} {n : Net Message ClientPc}
    (h : s.Steady A) (hc : Calm s (.peer c x a)) (hn : s.mem.net.act (client A) c x a = some n)
    (hs : s' = { s with mem := { s.mem with net := n } }) (hg : s'.Grounded) : s'.Steady A := by
  subst hs
  obtain ⟨ht, hk, hu⟩ := touches_act hn (fun ok ha => by subst ha; exact hc)
    (fun ha => by subst ha; exact hc)
  exact {
    grounded := hg
    serving := serving_touches h ht fun fd hfd hpoll => hk.serving (h.serving fd c hfd hpoll)
    accepts := fun t ht' => (h.accepts t ht').keeps ht hk
    listens := h.listens.mono fun fd hfd => by rw [ht.polled, hfd]
    main := h.main.mono (fun fd hfd => by rw [ht.polled, hfd]) fun _ => id
    sent := h.sent
    pipeline := fun c' => by
      rw [← h.pipeline c', State.pipeline, State.pipeline, Mem.pipeline, Mem.pipeline, hu c'] }

/-- The server sends a call on a descriptor that it polls. -/
theorem State.Steady.call {fd : ℕ} {msg : Message} {n : Net Message ClientPc} (h : s.Steady A)
    (hfd : s.mem.net.polled fd = true) (hcall : msg.IsCall) (hn : s.mem.net.send fd msg = some n) :
    (∀ fd c, n.fd fd = some c → n.polled fd = true → (channel n c).Serving) ∧
      (∀ t, t ≠ .listener → (s.pc t).Accepts n) ∧ n.polled = s.mem.net.polled := by
  obtain ⟨d, hd, ht, hch⟩ := touches_send hn
  refine ⟨serving_touches h ht fun fd' hfd' hpoll => ?_, fun t hne => ?_, ht.polled⟩
  · have hserving := h.serving fd' d hfd' hpoll
    rw [hch]
    refine ⟨hserving.peer, hserving.replies, fun m hm => ?_⟩
    obtain hm | hm := List.mem_append.mp hm
    · exact hserving.calls m hm
    · rw [List.mem_singleton.mp hm]
      exact hcall
  · refine (h.accepts t hne).touches ht fun fd' hpc hfd' => ?_
    have hunpolled := h.grounded.not_handled hne hpc hfd' hd
    rw [hfd] at hunpolled
    cases hunpolled

theorem State.Steady.pinger {ok : Bool} (h : s.Steady A) (hc : Calm s (.pinger ok))
    (hn : pingerStep s ok = some s') (hg : s'.Grounded) : s'.Steady A := by
  have hsame := pinger_same hc hn
  unfold pingerStep at hn
  split at hn
  · cases hn
    exact ⟨hg, h.serving, h.accepts, h.listens, h.main, h.sent, h.pipeline⟩
  · rename_i i hi
    split at hn
    · rename_i hlt
      obtain ⟨m, hm, rfl⟩ := Option.map_eq_some_iff.mp hn
      have hcalm := hc ⟨i, hlt⟩ hi
      unfold Mem.pingSlot at hm
      split at hm
      · cases hm
        exact ⟨hg, h.serving, h.accepts, h.listens, h.main, h.sent, h.pipeline⟩
      · rename_i hactive
        split at hm
        · have := hcalm (by simpa using hactive)
          omega
        · have hpoll := h.grounded.slots.polled ⟨i, hlt⟩ (by simpa using hactive)
          cases ok with
          | false =>
            cases hm
            exact ⟨hg, h.serving, h.accepts, h.listens, h.main.of_same hsame, h.sent, h.pipeline⟩
          | true =>
            obtain ⟨n, hsend, rfl⟩ := Option.map_eq_some_iff.mp hm
            obtain ⟨hserving, haccepts, hpolled⟩ := h.call hpoll (.inl rfl) hsend
            exact ⟨hg, hserving, haccepts, h.listens.mono fun fd hfd => by rw [hpolled, hfd],
              h.main.of_same hsame, h.sent, fun c => by
                rw [← h.pipeline c, State.pipeline, State.pipeline, Mem.pipeline, Mem.pipeline,
                  underWay_send (answer_typeMessage A _) hsend]⟩
    · cases hn
      exact ⟨hg, h.serving, h.accepts, h.listens, h.main, h.sent, h.pipeline⟩

theorem readLine_valid {id : Int32} {line : List UInt8} {req : Request}
    (h : readLine strtod id line = some req) : processRequest A req ≠ none := by
  simp only [readLine] at h
  split at h
  · cases h
  · obtain ⟨-, t, ht⟩ := parseRequest_some h
    unfold processRequest
    rw [ht]
    cases t <;> exact Option.some_ne_none _

theorem State.Steady.read {line : List UInt8} (h : s.Steady A)
    (hn : readStep strtod s line = some s') (hg : s'.Grounded) : s'.Steady A := by
  unfold readStep at hn
  split at hn
  · split at hn
    · cases hn
      exact h
    · rename_i req hreq
      cases hn
      exact ⟨hg, h.serving, h.accepts, h.listens, readLine_valid hreq, h.sent, h.pipeline⟩
  · cases hn

theorem nextFreeClient_active {cl : Clients} {freeCl : ℕ} {r : Slot × ℕ}
    (h : cl.nextFreeClient freeCl = some r) : (cl r.1).active = true := by
  obtain ⟨k, hk, rfl⟩ := Option.map_eq_some_iff.mp h
  have hactive := List.find?_some hk
  exact hactive

theorem State.Steady.mainStep {ok : Bool} (h : s.Steady A) (hn : mainStep s ok = some s')
    (hg : s'.Grounded) : s'.Steady A := by
  have hmain := h.main
  unfold AghOs.Calc.mainStep at hn
  split at hn
  · cases hn
  · rename_i req hpc
    rw [hpc] at hmain
    split at hn
    · split at hn
      · cases hn
        exact ⟨hg, h.serving, h.accepts, h.listens, trivial, h.sent, h.pipeline⟩
      · rename_i clid freeCl hnext
        cases hn
        exact ⟨hg, h.serving, h.accepts, h.listens, ⟨nextFreeClient_active hnext, hmain⟩, h.sent,
          h.pipeline⟩
    · cases hn
  · rename_i clid req hpc
    rw [hpc] at hmain
    cases hn
    exact ⟨hg, h.serving, h.accepts, h.listens, ⟨h.grounded.slots.polled clid hmain.1, hmain.2⟩,
      h.sent, h.pipeline⟩
  · rename_i fd req hpc
    rw [hpc] at hmain
    obtain ⟨m, hm, rfl⟩ := Option.map_eq_some_iff.mp hn
    unfold Mem.sendRequest at hm
    split at hm
    · obtain ⟨conn, hfd, hm⟩ := Option.bind_eq_some_iff.mp hm
      obtain ⟨n, hsend, rfl⟩ := Option.map_eq_some_iff.mp hm
      obtain ⟨hserving, haccepts, hpolled⟩ := h.call hmain.1 (isCall_request req) hsend
      refine ⟨hg, hserving, haccepts, h.listens.mono fun fd hfd => by rw [hpolled, hfd], trivial,
        fun p hp => ?_, fun c => ?_⟩
      · obtain hp | hp := List.mem_append.mp hp
        · exact h.sent p hp
        · rw [List.mem_singleton.mp hp]
          exact hmain.2
      · rw [answersTo_append, ← h.pipeline c]
        simp only [State.pipeline, Mem.pipeline, underWay_request hfd hsend c, List.append_assoc]
    · cases hm
      exact ⟨hg, h.serving, h.accepts, h.listens, trivial, h.sent, h.pipeline⟩

/-- An accept thread goes on. -/
theorem State.Steady.goto {t : Thread} {m : Mem ClientPc} {pc : Pc} (h : s.Steady A)
    (ht : t ≠ .listener) (hg : (s.goto t m pc).Grounded)
    (hserving : ∀ fd c, m.net.fd fd = some c → m.net.polled fd = true →
      (channel m.net c).Serving)
    (hself : pc.Accepts m.net)
    (hother : ∀ u, u ≠ .listener → u ≠ t → (s.pc u).Accepts m.net)
    (hpolled : ∀ fd, s.mem.net.polled fd = true → m.net.polled fd = true)
    (hactive : ∀ i, (s.mem.clients i).active = true → (m.clients i).active = true)
    (hsent : m.sent = s.mem.sent) (hprinted : m.printed = s.mem.printed)
    (hway : ∀ c, underWay A m.net c = underWay A s.mem.net c) : (s.goto t m pc).Steady A := by
  have hl : (s.goto t m pc).pc .listener = s.pc .listener :=
    Function.update_of_ne (Ne.symm ht) ..
  refine ⟨hg, hserving, fun u hu => ?_, ?_, h.main.mono hpolled hactive, fun p hp => ?_,
    fun c => ?_⟩
  · by_cases hut : u = t
    · subst hut
      rw [show (s.goto u m pc).pc u = pc from Function.update_self ..]
      exact hself
    · rw [show (s.goto t m pc).pc u = s.pc u from Function.update_of_ne hut ..]
      exact hother u hu hut
  · rw [hl]
    exact h.listens.mono hpolled
  · change p ∈ m.sent at hp
    rw [hsent] at hp
    exact h.sent p hp
  · show (s.goto t m pc).pipeline A c = answersTo A m.sent c
    rw [hsent, ← h.pipeline c, State.pipeline, State.pipeline, hl, Mem.pipeline, Mem.pipeline]
    show printedOn m.printed c ++ _ ++ underWay A m.net c = _
    rw [hprinted, hway c]

/-- The listener goes on. -/
theorem State.Steady.goto_listener {m : Mem ClientPc} {pc : Pc} (h : s.Steady A)
    (hg : (s.goto .listener m pc).Grounded)
    (hserving : ∀ fd c, m.net.fd fd = some c → m.net.polled fd = true →
      (channel m.net c).Serving)
    (haccepts : ∀ u, u ≠ .listener → (s.pc u).Accepts m.net) (hself : pc.Listens m.net)
    (hpolled : m.net.polled = s.mem.net.polled)
    (hactive : ∀ i, (m.clients i).active = (s.mem.clients i).active)
    (hsent : m.sent = s.mem.sent)
    (hpipe : ∀ c, m.pipeline A pc c = s.mem.pipeline A (s.pc .listener) c) :
    (s.goto .listener m pc).Steady A := by
  have hl : (s.goto .listener m pc).pc .listener = pc := by simp [State.goto]
  refine ⟨hg, hserving, fun u hu => ?_, ?_, h.main.mono (fun fd hfd => ?_) fun i hi => ?_,
    fun p hp => ?_, fun c => ?_⟩
  · rw [show (s.goto .listener m pc).pc u = s.pc u from Function.update_of_ne hu ..]
    exact haccepts u hu
  · rw [hl]
    exact hself
  · show m.net.polled fd = true
    rw [hpolled, hfd]
  · show (m.clients i).active = true
    rw [hactive, hi]
  · change p ∈ m.sent at hp
    rw [hsent] at hp
    exact h.sent p hp
  · show (s.goto .listener m pc).pipeline A c = answersTo A m.sent c
    rw [hsent, ← h.pipeline c, State.pipeline, hl]
    exact hpipe c

theorem State.Steady.accept {t : Thread} {fd c : ℕ} {name : List UInt8}
    {n : Net Message ClientPc} (h : s.Steady A) (ht : t ≠ .listener)
    (hn : s.mem.net.accept fd c (.register name) = some n)
    (hg : (s.goto t { s.mem with net := n } (.receive fd)).Grounded) :
    (s.goto t { s.mem with net := n } (.receive fd)).Steady A := by
  obtain ⟨hfree, hnew, hnfd, hpolled, -⟩ := accept_spec hn
  obtain ⟨hts, htc, hs0, hc0, hp⟩ := Net.accept_eq hn
  have hother : ∀ d, d ≠ c → channel n d = channel s.mem.net d := fun d hd => by
    simp only [channel, hts, htc, hp, Function.update_of_ne hd]
  -- no descriptor was open for the new connection
  have hopen : ∀ fd' d, fd' ≠ fd → n.fd fd' = some d →
      s.mem.net.fd fd' = some d ∧ channel n d = channel s.mem.net d := by
    intro fd' d hne hfd
    rw [hnfd, Function.update_of_ne hne] at hfd
    refine ⟨hfd, hother d fun hdc => ?_⟩
    have hconn := (h.grounded.handOk fd' d hfd).conn
    rw [hdc, hnew] at hconn
    cases hconn
  refine h.goto ht hg (fun fd' d hfd hpoll => ?_) (fun d hfd => ?_) (fun u hu _ => ?_)
    (fun fd' hfd => ?_) (fun _ => id) rfl rfl fun d => ?_
  · change n.polled fd' = true at hpoll
    rw [hpolled] at hpoll
    obtain ⟨hfd', hch⟩ :=
      hopen fd' d (fun hff => h.grounded.slots.isOpen fd' hpoll (hff ▸ hfree)) hfd
    show (channel n d).Serving
    rw [hch]
    exact h.serving fd' d hfd' hpoll
  · change n.fd fd = some d at hfd
    rw [hnfd, Function.update_self] at hfd
    obtain rfl := Option.some.inj hfd
    show (channel n c).Fresh
    simp only [channel, hts, htc, hs0, hc0, hp, Function.update_self]
    exact .silent name
  · refine (h.accepts u hu).of_handled fun fd' d hpc hfd => hopen fd' d (fun hff => ?_) hfd
    exact (h.grounded.hands.addable u fd' hu hpc).1 (hff ▸ hfree)
  · show n.polled fd' = true
    rw [hpolled, hfd]
  · show underWay A n d = underWay A s.mem.net d
    by_cases hdc : d = c
    · subst hdc
      have hpeer : s.mem.net.peer d = none := by simp [Net.peer, hnew]
      simp [underWay, hts, htc, hs0, hc0, hp, hpeer, ClientPc.hand]
    · exact underWay_congr (congrFun hts d) (congrFun htc d)
        (by rw [hp, Function.update_of_ne hdc])

/-- The connection that an accept thread handles is no other thread's. -/
theorem State.Steady.other_threads {t : Thread} {fd d : ℕ} {n : Net Message ClientPc}
    (h : s.Steady A) (ht : t ≠ .listener) (hpc : (s.pc t).handled = some fd)
    (hfd : s.mem.net.fd fd = some d) (htouch : Touches d s.mem.net n) (u : Thread)
    (hu : u ≠ .listener) (hut : u ≠ t) : (s.pc u).Accepts n := by
  refine (h.accepts u hu).touches htouch fun fd' hpc' hfd' => hut ?_
  obtain rfl := (h.grounded.handOk fd d hfd).home fd' hfd'
  exact h.grounded.hands.apart u t fd' hu ht hpc' hpc

theorem State.Steady.receive {t : Thread} {old : Option (List UInt8)} {m : Mem ClientPc} {pc : Pc}
    (h : s.Steady A) (hn : receiveStep s.mem t old (s.pc t) = some (m, pc))
    (hg : (s.goto t m pc).Grounded) : (s.goto t m pc).Steady A := by
  have hfail : ∀ {fd}, s.pc t = .receive fd → (s.goto t s.mem .idle).Grounded →
      (s.goto t s.mem .idle).Steady A := by
    intro fd hpc hg
    by_cases ht : t = .listener
    · subst ht
      refine h.goto_listener hg h.serving h.accepts trivial rfl (fun _ => rfl) rfl fun c => ?_
      rw [Mem.pipeline, Mem.pipeline, hpc]
      rfl
    · exact h.goto ht hg h.serving trivial (fun u hu _ => h.accepts u hu) (fun _ => id)
        (fun _ => id) rfl rfl fun _ => rfl
  unfold receiveStep at hn
  split at hn
  · rename_i fd hpc
    split at hn
    · cases hn
      exact hfail hpc hg
    · rename_i old
      obtain ⟨⟨d, msg, n⟩, hrecv, hp⟩ := Option.map_eq_some_iff.mp hn
      cases hp
      obtain ⟨hfd, htouch, ms, hms, hch⟩ := touches_recv hrecv
      have hway := fun c => underWay_recv (A := A) hrecv c
      by_cases ht : t = .listener
      · subst ht
        have hpoll : s.mem.net.polled fd = true := by
          have hl := h.listens
          rwa [hpc] at hl
        have hserving := h.serving fd d hfd hpoll
        have hreply : msg.IsReply := hserving.replies msg (by
          show msg ∈ s.mem.net.toServer d
          rw [hms]
          exact List.mem_cons_self)
        rw [if_pos rfl] at hg ⊢
        refine h.goto_listener hg (serving_touches h htouch fun _ _ _ => ?_) (fun u hu => ?_)
          ⟨?_, hreply.over old⟩ htouch.polled (fun _ => rfl) rfl fun c => ?_
        · rw [hch]
          refine ⟨hserving.peer, fun m' hm' => hserving.replies m' ?_, hserving.calls⟩
          show m' ∈ s.mem.net.toServer d
          rw [hms]
          exact List.mem_cons_of_mem msg hm'
        · refine (h.accepts u hu).touches htouch fun fd' hpc' hfd' => ?_
          have hunpolled := h.grounded.not_handled hu hpc' hfd' hfd
          rw [hpoll] at hunpolled
          cases hunpolled
        · show n.polled fd = true
          rw [htouch.polled, hpoll]
        · rw [Mem.pipeline, Mem.pipeline, hpc, hway c]
          simp only [Pc.hand, over_printable, List.append_nil, List.append_assoc]
      · obtain ⟨hresp, hread⟩ := (by
          have hacc := h.accepts t ht
          rw [hpc] at hacc
          exact (hacc d hfd).message hms : msg.response = none ∧ _)
        have hchan : (channel n d).Read := hch.trans hread
        have hhandled : (s.pc t).handled = some fd := by rw [hpc]; rfl
        have hway' : ∀ c, underWay A n c = underWay A s.mem.net c := fun c => by
          rw [hway c, hresp]
          split <;> rfl
        have hserving : ∀ fd' c, n.fd fd' = some c → n.polled fd' = true →
            (channel n c).Serving :=
          serving_touches h htouch fun _ _ _ => hchan.serving
        have hpolled : ∀ fd', s.mem.net.polled fd' = true → n.polled fd' = true := fun fd' hp => by
          rw [htouch.polled, hp]
        rw [if_neg ht] at hg ⊢
        refine h.goto ht hg hserving ?_ (h.other_threads ht hhandled hfd htouch) hpolled
          (fun _ => id) rfl rfl hway'
        split
        · intro c hc
          change n.fd fd = some c at hc
          rw [htouch.fd, hfd] at hc
          obtain rfl := Option.some.inj hc
          exact hchan
        · trivial
  · cases hn

theorem clientForSock_of_hasSlot {m : Mem ClientPc} {fd : ℕ} (h : m.HasSlot fd) :
    m.clients.clientForSock fd ≠ none := by
  obtain ⟨i, hi, hsock⟩ := h
  intro hnone
  have := List.find?_eq_none.mp hnone i (List.mem_finRange i)
  simp [hi, hsock] at this

/-- A reply of a client that is in the table. -/
theorem State.Steady.dispatch {fd conn : ℕ} {client : Option Slot} {sm : SocketMessage}
    {m : Mem ClientPc} {pc : Pc} (h : s.Steady A)
    (hpc : s.pc .listener = .dispatch fd conn client sm)
    (hn : s.mem.dispatch fd conn client sm = (m, pc)) (hg : (s.goto .listener m pc).Grounded) :
    (s.goto .listener m pc).Steady A := by
  have hl := h.listens
  rw [hpc] at hl
  obtain ⟨hclient, hreply⟩ := hl
  obtain ⟨id, rfl⟩ := Option.ne_none_iff_exists'.mp hclient
  obtain htype | htype := hreply
  · have hprintable : sm.printable = none := by
      unfold SocketMessage.printable
      rw [if_neg (by rw [htype]; decide)]
    simp only [Mem.dispatch, htype, show msgTypePong ≠ msgTypeRegister by decide,
      show msgTypePong ≠ msgTypeUnregister by decide, if_false, if_true] at hn
    cases hn
    refine h.goto_listener hg h.serving h.accepts trivial rfl (fun i => ?_) rfl fun c => ?_
    · exact (Mem.Same.setInactivity s.mem id 0).active i
    · rw [Mem.pipeline, Mem.pipeline, hpc]
      simp [Pc.hand, hprintable, Mem.handlePong]
  · have hprintable : sm.printable = sm.response := if_pos htype
    simp only [Mem.dispatch, htype, show msgTypeResponse ≠ msgTypeRegister by decide,
      show msgTypeResponse ≠ msgTypeUnregister by decide,
      show msgTypeResponse ≠ msgTypePong by decide, if_false, if_true] at hn
    cases hn
    cases hr : sm.response with
    | none =>
      have hm : s.mem.handleResponse id conn sm = s.mem := by simp [Mem.handleResponse, hr]
      rw [hm] at hg ⊢
      refine h.goto_listener hg h.serving h.accepts trivial rfl (fun _ => rfl) rfl fun c => ?_
      rw [Mem.pipeline, Mem.pipeline, hpc]
      simp [Pc.hand, hprintable, hr]
    | some resp =>
      have hm : s.mem.handleResponse id conn sm =
          { s.mem with printed := s.mem.printed ++ [⟨conn, resp, (s.mem.clients id).name⟩] } := by
        simp [Mem.handleResponse, hr]
      rw [hm] at hg ⊢
      refine h.goto_listener hg h.serving h.accepts trivial rfl (fun _ => rfl) rfl fun c => ?_
      rw [Mem.pipeline, Mem.pipeline, hpc]
      by_cases hc : conn = c
      · simp [printedOn, Pc.hand, hc, hprintable, hr]
      · simp [printedOn, Pc.hand, hc]

/-- A client is told that its name is in use. -/
theorem State.Steady.refuse {t : Thread} {fd : ℕ} {ok : Bool} {m : Mem ClientPc} (h : s.Steady A)
    (ht : t ≠ .listener) (hpc : s.pc t = .refuse fd)
    (hn : s.mem.sendSm fd (typeMessage msgTypeNameInUse) ok = some m)
    (hg : (s.goto t m .idle).Grounded) : (s.goto t m .idle).Steady A := by
  have hhandled : (s.pc t).handled = some fd := by rw [hpc]; rfl
  cases ok with
  | false =>
    cases hn
    exact h.goto ht hg h.serving trivial (fun u hu _ => h.accepts u hu) (fun _ => id)
      (fun _ => id) rfl rfl fun _ => rfl
  | true =>
    obtain ⟨n, hsend, rfl⟩ := Option.map_eq_some_iff.mp hn
    obtain ⟨d, hfd, htouch, -⟩ := touches_send hsend
    refine h.goto ht hg (serving_touches h htouch fun fd' hfd' hpoll => ?_) trivial
      (h.other_threads ht hhandled hfd htouch) (fun fd' hp => ?_) (fun _ => id) rfl rfl fun c => ?_
    · have hunpolled := h.grounded.not_handled ht hhandled hfd hfd'
      rw [hpoll] at hunpolled
      cases hunpolled
    · show n.polled fd' = true
      rw [htouch.polled, hp]
    · exact underWay_send (answer_typeMessage A _) hsend c

/-- A client gets a slot, if one is free. -/
theorem State.Steady.insert {t : Thread} {fd : ℕ} {name : List UInt8} (h : s.Steady A)
    (ht : t ≠ .listener) (hpc : s.pc t = .insert fd name)
    (hg : (s.goto t (s.mem.insertClient fd name) .idle).Grounded) :
    (s.goto t (s.mem.insertClient fd name) .idle).Steady A := by
  have hhandled : (s.pc t).handled = some fd := by rw [hpc]; rfl
  have hread : ∀ c, s.mem.net.fd fd = some c → (channel s.mem.net c).Read := by
    have hacc := h.accepts t ht
    rwa [hpc] at hacc
  obtain ⟨-, hm⟩ | ⟨-, -, hnot⟩ | ⟨id, hid, -, hm⟩ := insertClient_cases s.mem fd name
  · rw [hm] at hg ⊢
    exact h.goto ht hg h.serving trivial (fun u hu _ => h.accepts u hu) (fun _ => id)
      (fun _ => id) rfl rfl fun _ => rfl
  · exact absurd (h.grounded.hands.addable t fd ht hhandled) hnot
  · rw [hm] at hg ⊢
    refine h.goto ht hg (fun fd' c hfd' hpoll => ?_) trivial (fun u hu _ => ?_) (fun fd' hp => ?_)
      (fun i hi => ?_) rfl rfl fun _ => rfl
    · change s.mem.net.fd fd' = some c at hfd'
      change Function.update s.mem.net.polled fd true fd' = true at hpoll
      show (channel s.mem.net c).Serving
      by_cases hff : fd' = fd
      · subst hff
        exact (hread c hfd').serving
      · rw [Function.update_of_ne hff] at hpoll
        exact h.serving fd' c hfd' hpoll
    · exact (h.accepts u hu).of_handled fun fd' c _ hfd' => ⟨hfd', rfl⟩
    · show Function.update s.mem.net.polled fd true fd' = true
      by_cases hff : fd' = fd
      · rw [hff, Function.update_self]
      · rw [Function.update_of_ne hff, hp]
    · show (s.mem.clients.occupy id fd name i).active = true
      by_cases hii : i = id
      · rw [hii, Clients.occupy_self]
      · rw [Clients.occupy_of_ne hii, hi]

theorem State.Steady.thread {t : Thread} {locked ok : Bool} {m : Mem ClientPc} {pc : Pc}
    (h : s.Steady A) (hn : threadStep s.mem locked ok (s.pc t) = some (m, pc))
    (hg : (s.goto t m pc).Grounded) : (s.goto t m pc).Steady A := by
  have hl := h.listens
  cases hpc : s.pc t with
  | idle | receive fd =>
    rw [hpc] at hn
    cases hn
  | lookup fd conn sm =>
    obtain rfl : t = .listener := by
      by_contra ht
      have hacc := h.grounded.hands.accepting t ht
      rw [hpc] at hacc
      cases hacc
    rw [hpc] at hn hl
    simp only [threadStep] at hn
    split at hn <;> cases hn
    refine h.goto_listener hg h.serving h.accepts
      ⟨clientForSock_of_hasSlot (h.grounded.hasSlot fd hl.1), hl.2⟩ rfl (fun _ => rfl) rfl
      fun c => ?_
    rw [Mem.pipeline, Mem.pipeline, hpc]
    rfl
  | dispatch fd conn client sm =>
    obtain rfl : t = .listener := by
      by_contra ht
      have hacc := h.grounded.hands.accepting t ht
      rw [hpc] at hacc
      cases hacc
    rw [hpc] at hn
    exact h.dispatch hpc (Option.some.inj hn) hg
  | unregister client => exact absurd hpc (h.not_unregister t client)
  | check fd sm =>
    have ht : t ≠ .listener := by
      rintro rfl
      rw [hpc] at hl
      exact hl
    have hacc := h.accepts t ht
    rw [hpc] at hn hacc
    simp only [threadStep] at hn
    split at hn <;> cases hn
    refine h.goto ht hg h.serving ?_ (fun u hu _ => h.accepts u hu) (fun _ => id) (fun _ => id)
      rfl rfl fun _ => rfl
    split <;> exact hacc
  | refuse fd =>
    have ht : t ≠ .listener := by
      rintro rfl
      rw [hpc] at hl
      exact hl
    rw [hpc] at hn
    obtain ⟨m', hm, hp⟩ := Option.map_eq_some_iff.mp hn
    cases hp
    exact h.refuse ht hpc hm hg
  | insert fd name =>
    have ht : t ≠ .listener := by
      rintro rfl
      rw [hpc] at hl
      exact hl
    rw [hpc] at hn
    simp only [threadStep] at hn
    split at hn <;> cases hn
    exact h.insert ht hpc hg

theorem State.Steady.epollWait {fd : ℕ} (h : s.Steady A) (hn : epollStep s fd = some s')
    (hg : s'.Grounded) : s'.Steady A := by
  unfold epollStep at hn
  split at hn
  · rename_i hpc
    split at hn <;> cases hn
    refine h.goto_listener hg h.serving h.accepts ‹_› rfl (fun _ => rfl) rfl fun c => ?_
    rw [Mem.pipeline, Mem.pipeline, hpc]
    rfl
  · cases hn

theorem State.Steady.next (h : s.Steady A) (hc : Calm s l)
    (hn : (server strtod (client A)).next s l = some s') : s'.Steady A := by
  have hg := h.grounded_next hc hn
  obtain ⟨he, -⟩ := server_effect hn
  simp only [server, he, Bool.false_eq_true, if_false] at hn
  cases l with
  | accept t fd conn x =>
    simp only [serverNext, acceptStep] at hn
    split at hn
    · cases hn
    · rename_i ht hpc
      obtain ⟨n, hnet, rfl⟩ := Option.map_eq_some_iff.mp hn
      exact h.accept ht hnet hg
    · cases hn
  | epollWait fd => exact h.epollWait hn hg
  | receive t old =>
    obtain ⟨⟨m, pc⟩, hm, rfl⟩ := Option.map_eq_some_iff.mp hn
    exact h.receive hm hg
  | thread t ok =>
    obtain ⟨⟨m, pc⟩, hm, rfl⟩ := Option.map_eq_some_iff.mp hn
    exact h.thread hm hg
  | pinger ok => exact h.pinger hc hn hg
  | readRequest line => exact h.read hn hg
  | main ok => exact h.mainStep hn hg
  | peer c x a =>
    obtain ⟨n, hnet, rfl⟩ := Option.map_eq_some_iff.mp hn
    exact h.peer hc hnet rfl hg

theorem reachIf_steady (h : (server strtod (client A)).ReachIf Calm s) : s.Steady A := by
  refine Machine.ReachIf.invariant (I := fun s : State (client A) => s.Steady A) h
    (fun s h0 => ?_) fun s l s' hI hc hn => hI.next hc hn
  cases h0
  exact {
    grounded := ⟨Mem.initial_slotsPolled, ⟨fun _ _ => rfl, fun _ _ _ hfd => (by cases hfd),
      fun _ _ _ _ _ hfd => (by cases hfd)⟩, fun _ hfd => (by cases hfd),
      fun _ _ hfd => (by cases hfd)⟩
    serving := fun _ _ hfd => (by cases hfd)
    accepts := fun _ _ => trivial
    listens := trivial
    main := trivial
    sent := fun _ hp => (by cases hp)
    pipeline := fun _ => rfl }

end

/-! ## All requests are answered -/

/-- Two lists of messages that are the same on every connection. -/
theorem perm_of_connections {β : Type*} {xs ys : List (ℕ × β)}
    (h : ∀ c, (xs.filter fun p => p.1 = c).map Prod.snd =
      (ys.filter fun p => p.1 = c).map Prod.snd) : xs.Perm ys := by
  classical
  have hcount : ∀ (zs : List (ℕ × β)) (c : ℕ) (b : β),
      ((zs.filter fun p => p.1 = c).map Prod.snd).count b = zs.count (c, b) := by
    intro zs c b
    rw [List.count, List.countP_map, List.countP_filter, List.count]
    refine List.countP_congr fun p _ => ?_
    simp [Prod.ext_iff, and_comm]
  refine List.perm_iff_count.mpr fun p => ?_
  rw [← hcount, ← hcount, h]

/-- The answers to the requests sent, each with its connection. -/
def answers (A : Arith) (sent : List (ℕ × Request)) : List (ℕ × Response) :=
  sent.filterMap fun p => (processRequest A p.2).map (p.1, ·)

theorem answers_filter (sent : List (ℕ × Request)) (c : ℕ) :
    ((answers A sent).filter fun p => p.1 = c).map Prod.snd = answersTo A sent c := by
  induction sent with
  | nil => rfl
  | cons p sent ih =>
    cases hr : processRequest A p.2 with
    | none => by_cases hc : p.1 = c <;> simpa [answers, answersTo, hr, hc] using ih
    | some resp => by_cases hc : p.1 = c <;> simpa [answers, answersTo, hr, hc] using ih

theorem answers_ids {sent : List (ℕ × Request)} (h : ∀ p ∈ sent, processRequest A p.2 ≠ none) :
    (answers A sent).map (fun p => p.2.id) = sent.map fun p => p.2.id := by
  induction sent with
  | nil => rfl
  | cons p sent ih =>
    obtain ⟨resp, hresp⟩ := Option.ne_none_iff_exists'.mp (h p List.mem_cons_self)
    have hrest := ih fun q hq => h q (List.mem_cons_of_mem p hq)
    simpa [answers, hresp, processRequest_id hresp] using hrest

/-- As long as nobody is timed out or leaves and no send of a client fails, every
    request has its answer printed, in the hand of the listener or under way, on each
    connection in the order of the requests. When nothing is under way to or from the
    clients that got a request, the ids of the requests have been printed, each once. -/
theorem all_answered {s : State (client A)} (h : (server strtod (client A)).ReachIf Calm s) :
    (∀ c, printedOn s.mem.printed c ++ (s.pc .listener).hand c ++ underWay A s.mem.net c =
      answersTo A s.mem.sent c) ∧
      (∀ p ∈ s.mem.sent, processRequest A p.2 ≠ none) ∧
      ((∀ p ∈ s.mem.sent, (s.pc .listener).hand p.1 = [] ∧ underWay A s.mem.net p.1 = []) →
        (∀ c, printedOn s.mem.printed c = answersTo A s.mem.sent c) ∧
        (s.mem.printed.map fun p => p.resp.id).Perm
          ((List.range s.mem.sent.length).map Int32.ofNat)) := by
  have hsteady := reachIf_steady h
  refine ⟨hsteady.pipeline, hsteady.sent, fun hdone => ?_⟩
  have hprinted : ∀ c, printedOn s.mem.printed c = answersTo A s.mem.sent c := by
    intro c
    have hpipe := hsteady.pipeline c
    rw [State.pipeline, Mem.pipeline] at hpipe
    by_cases hc : ∃ p ∈ s.mem.sent, p.1 = c
    · obtain ⟨p, hp, rfl⟩ := hc
      obtain ⟨hhand, hway⟩ := hdone p hp
      rwa [hhand, hway, List.append_nil, List.append_nil] at hpipe
    · have hnone : answersTo A s.mem.sent c = [] := by
        unfold answersTo
        rw [List.filter_eq_nil_iff.mpr fun p hp => by simpa using fun h => hc ⟨p, hp, h⟩]
        rfl
      rw [hnone] at hpipe ⊢
      exact (List.append_eq_nil_iff.mp (List.append_eq_nil_iff.mp hpipe).1).1
  have hperm : (s.mem.printed.map fun p => (p.conn, p.resp)).Perm (answers A s.mem.sent) := by
    refine perm_of_connections fun c => ?_
    rw [answers_filter, ← hprinted c, List.filter_map, List.map_map]
    rfl
  refine ⟨hprinted, ?_⟩
  have hids := hperm.map fun p => p.2.id
  rwa [answers_ids hsteady.sent, (reach_ids h.reach).sent, List.map_map] at hids

end AghOs.Calc
