import Mathlib.Data.List.Basic
import Mathlib.Logic.Function.Basic
import Mathlib.Tactic.Common

/-!
# Connections of a server

A server with its open file descriptors, the set of those it polls, and one
connection for each peer that ever connected. A connection carries whole
messages, in order and each once, in both directions. A descriptor that has
been closed can be given to a later connection; the numbers of the connections
are not reused, and the server does not see them.

A send that fails delivers nothing: it is no operation here.

The lemmas say what each operation does to the messages under way on every
connection (`toServer`, `toClient`) and to its peer.
-/

namespace AghOs

/-- A program that peers run, by what it can do in a state: take a message,
    send one (its state afterwards depends on whether the send succeeds), or do
    something of its own. It begins in `start`; `Choice` is what its steps leave
    open. -/
structure Peer (φ : Type) where
  State : Type
  Start : Type
  Choice : Type
  start : Start → State
  recv : State → Choice → φ → Option State
  send : State → Choice → Option (φ × (Bool → State))
  internal : State → Choice → Option State

/-- What a peer does next. -/
inductive Act
  | recv
  | send (ok : Bool)
  | internal

structure Conn (φ π : Type) where
  toServer : List φ
  toClient : List φ
  peer : π

/-- `fd` is the table of open descriptors, `polled` the set that is polled. -/
structure Net (φ π : Type) where
  fd : ℕ → Option ℕ
  polled : ℕ → Bool
  conn : ℕ → Option (Conn φ π)

namespace Net

variable {φ π : Type}

def empty : Net φ π := ⟨fun _ => none, fun _ => false, fun _ => none⟩

/-- The messages that the server has still to read from connection `c`. -/
def toServer (n : Net φ π) (c : ℕ) : List φ := ((n.conn c).map Conn.toServer).getD []

/-- The messages that the peer of connection `c` has still to read. -/
def toClient (n : Net φ π) (c : ℕ) : List φ := ((n.conn c).map Conn.toClient).getD []

def peer (n : Net φ π) (c : ℕ) : Option π := (n.conn c).map Conn.peer

def set (n : Net φ π) (c : ℕ) (k : Conn φ π) : Net φ π :=
  { n with conn := Function.update n.conn c (some k) }

/-- A new connection `c`, with the descriptor `fd`. -/
def accept (n : Net φ π) (fd c : ℕ) (q : π) : Option (Net φ π) :=
  if n.fd fd = none ∧ n.conn c = none then
    some { n.set c ⟨[], [], q⟩ with fd := Function.update n.fd fd (some c) }
  else none

/-- A send that succeeds. -/
def send (n : Net φ π) (fd : ℕ) (m : φ) : Option (Net φ π) :=
  (n.fd fd).bind fun c => (n.conn c).map fun k =>
    n.set c { k with toClient := k.toClient ++ [m] }

/-- The next message read through `fd`, with the connection it came from. -/
def recv (n : Net φ π) (fd : ℕ) : Option (ℕ × φ × Net φ π) :=
  (n.fd fd).bind fun c => (n.conn c).bind fun k =>
    match k.toServer with
    | [] => none
    | m :: ms => some (c, m, n.set c { k with toServer := ms })

/-- A closed descriptor leaves the polled set. -/
def close (n : Net φ π) (fd : ℕ) : Net φ π :=
  { n with fd := Function.update n.fd fd none, polled := Function.update n.polled fd false }

/-- `none` is an error: `fd` is not open, or is polled already. -/
def poll (n : Net φ π) (fd : ℕ) : Option (Net φ π) :=
  if n.fd fd = none ∨ n.polled fd = true then none
  else some { n with polled := Function.update n.polled fd true }

/-- The peer of connection `c` does something. -/
def act (P : Peer φ) (n : Net φ P.State) (c : ℕ) (x : P.Choice) (a : Act) :
    Option (Net φ P.State) :=
  (n.conn c).bind fun k =>
    match a with
    | .recv =>
      match k.toClient with
      | [] => none
      | m :: ms => (P.recv k.peer x m).map fun q => n.set c ⟨k.toServer, ms, q⟩
    | .send ok => (P.send k.peer x).map fun p =>
        n.set c ⟨if ok then k.toServer ++ [p.1] else k.toServer, k.toClient, p.2 ok⟩
    | .internal => (P.internal k.peer x).map fun q => n.set c { k with peer := q }

/-! ## What the operations do to the messages under way -/

section

variable {n n' : Net φ π} {fd c : ℕ}

@[simp] theorem close_toServer : (n.close fd).toServer = n.toServer := rfl
@[simp] theorem close_toClient : (n.close fd).toClient = n.toClient := rfl
@[simp] theorem close_peer : (n.close fd).peer = n.peer := rfl

theorem poll_eq (h : n.poll fd = some n') :
    n'.toServer = n.toServer ∧ n'.toClient = n.toClient ∧ n'.peer = n.peer := by
  unfold poll at h
  split at h <;> cases h
  exact ⟨rfl, rfl, rfl⟩

theorem set_toServer (k : Conn φ π) :
    (n.set c k).toServer = Function.update n.toServer c k.toServer := by
  funext d
  by_cases hd : d = c
  · subst hd; simp [toServer, set]
  · simp [toServer, set, Function.update_of_ne hd]

theorem set_toClient (k : Conn φ π) :
    (n.set c k).toClient = Function.update n.toClient c k.toClient := by
  funext d
  by_cases hd : d = c
  · subst hd; simp [toClient, set]
  · simp [toClient, set, Function.update_of_ne hd]

theorem set_peer (k : Conn φ π) :
    (n.set c k).peer = Function.update n.peer c (some k.peer) := by
  funext d
  by_cases hd : d = c
  · subst hd; simp [peer, set]
  · simp [peer, set, Function.update_of_ne hd]

theorem accept_eq {q : π} (h : n.accept fd c q = some n') :
    n'.toServer = n.toServer ∧ n'.toClient = n.toClient ∧ n.toServer c = [] ∧
      n.toClient c = [] ∧ n'.peer = Function.update n.peer c (some q) := by
  unfold accept at h
  split at h <;> cases h
  rename_i hfree
  have hs : n.toServer c = [] := by simp [toServer, hfree.2]
  have hc : n.toClient c = [] := by simp [toClient, hfree.2]
  refine ⟨(set_toServer _).trans ?_, (set_toClient _).trans ?_, hs, hc, set_peer _⟩
  · simp [← hs]
  · simp [← hc]

variable {k : Conn φ π}

theorem toServer_of (h : n.conn c = some k) : n.toServer c = k.toServer := by simp [toServer, h]

theorem toClient_of (h : n.conn c = some k) : n.toClient c = k.toClient := by simp [toClient, h]

theorem peer_of (h : n.conn c = some k) : n.peer c = some k.peer := by simp [peer, h]

theorem send_eq {m : φ} (h : n.send fd m = some n') :
    ∃ c, n.fd fd = some c ∧ n'.toServer = n.toServer ∧ n'.peer = n.peer ∧
      n'.toClient = Function.update n.toClient c (n.toClient c ++ [m]) := by
  obtain ⟨c, hc, h⟩ := Option.bind_eq_some_iff.mp h
  obtain ⟨k, hk, h⟩ := Option.map_eq_some_iff.mp h
  cases h
  refine ⟨c, hc, ?_, ?_, ?_⟩
  · rw [set_toServer, ← toServer_of hk, Function.update_eq_self]
  · rw [set_peer, ← peer_of hk, Function.update_eq_self]
  · rw [set_toClient, toClient_of hk]

theorem recv_eq {m : φ} (h : n.recv fd = some (c, m, n')) :
    n.fd fd = some c ∧ n'.toClient = n.toClient ∧ n'.peer = n.peer ∧
      ∃ ms, n.toServer c = m :: ms ∧ n'.toServer = Function.update n.toServer c ms := by
  obtain ⟨c', hc, h⟩ := Option.bind_eq_some_iff.mp h
  obtain ⟨k, hk, h⟩ := Option.bind_eq_some_iff.mp h
  split at h
  · cases h
  · rename_i m' ms hms
    cases h
    refine ⟨hc, ?_, ?_, ms, ?_, ?_⟩
    · rw [set_toClient, ← toClient_of hk, Function.update_eq_self]
    · rw [set_peer, ← peer_of hk, Function.update_eq_self]
    · rw [toServer_of hk, hms]
    · rw [set_toServer]

end

theorem act_recv_eq {P : Peer φ} {n n' : Net φ P.State} {c : ℕ} {x : P.Choice}
    (h : n.act P c x .recv = some n') :
    ∃ q q' m ms, n.peer c = some q ∧ n.toClient c = m :: ms ∧ P.recv q x m = some q' ∧
      n'.toServer = n.toServer ∧ n'.toClient = Function.update n.toClient c ms ∧
      n'.peer = Function.update n.peer c (some q') := by
  obtain ⟨k, hk, h⟩ := Option.bind_eq_some_iff.mp h
  simp only at h
  split at h
  · cases h
  · rename_i m ms hms
    obtain ⟨q', hq, h⟩ := Option.map_eq_some_iff.mp h
    cases h
    refine ⟨k.peer, q', m, ms, peer_of hk, by rw [toClient_of hk, hms], hq, ?_, ?_, ?_⟩
    · rw [set_toServer, ← toServer_of hk, Function.update_eq_self]
    · rw [set_toClient]
    · rw [set_peer]

theorem act_send_eq {P : Peer φ} {n n' : Net φ P.State} {c : ℕ} {x : P.Choice} {ok : Bool}
    (h : n.act P c x (.send ok) = some n') :
    ∃ q m q', n.peer c = some q ∧ P.send q x = some (m, q') ∧ n'.toClient = n.toClient ∧
      n'.toServer = Function.update n.toServer c
        (if ok then n.toServer c ++ [m] else n.toServer c) ∧
      n'.peer = Function.update n.peer c (some (q' ok)) := by
  obtain ⟨k, hk, h⟩ := Option.bind_eq_some_iff.mp h
  obtain ⟨⟨m, q'⟩, hq, h⟩ := Option.map_eq_some_iff.mp h
  cases h
  refine ⟨k.peer, m, q', peer_of hk, hq, ?_, ?_, ?_⟩
  · rw [set_toClient, ← toClient_of hk, Function.update_eq_self]
  · rw [set_toServer, toServer_of hk]
  · rw [set_peer]

theorem act_internal_eq {P : Peer φ} {n n' : Net φ P.State} {c : ℕ} {x : P.Choice}
    (h : n.act P c x .internal = some n') :
    ∃ q q', n.peer c = some q ∧ P.internal q x = some q' ∧ n'.toServer = n.toServer ∧
      n'.toClient = n.toClient ∧ n'.peer = Function.update n.peer c (some q') := by
  obtain ⟨k, hk, h⟩ := Option.bind_eq_some_iff.mp h
  obtain ⟨q', hq, h⟩ := Option.map_eq_some_iff.mp h
  cases h
  refine ⟨k.peer, q', peer_of hk, hq, ?_, ?_, ?_⟩
  · rw [set_toServer, ← toServer_of hk, Function.update_eq_self]
  · rw [set_toClient, ← toClient_of hk, Function.update_eq_self]
  · rw [set_peer]

end Net
end AghOs
