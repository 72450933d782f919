import ZevraServer.Edges

/-!
# Sockets

What a command does to one socket. Every command maps the list of sockets, adds to it
or takes from it, so a property of the sockets is kept if the commands keep it for
each socket.
-/

namespace ZevraServer

open ReadCommitted Interleaving

/-- The socket after the command. -/
def Effect.socket (s : Socket) : Effect → Socket
  | .socketsJoin rooms c => if ∃ r ∈ rooms, r ∈ s.rooms then s.join [.channel c] else s
  | .socketsLeave room c => if room ∈ s.rooms then s.leave c else s
  | .join i u rooms => if s.id = i ∧ s.user = u then s.join rooms else s
  | .leave i u c => if s.id = i ∧ s.user = u then s.leave c else s
  | .announce i u => if s.id = i ∧ s.user = u then { s with announced := true } else s
  | _ => s

/-- The command calls the socket into the channel's room. -/
def Effect.putsIn (s : Socket) (c : Uuid) : Effect → Prop
  | .socketsJoin rooms c' => (∃ r ∈ rooms, r ∈ s.rooms) ∧ c' = c
  | .join i u rooms => (s.id = i ∧ s.user = u) ∧ .channel c ∈ rooms
  | _ => False

/-- The command takes the socket out of the channel's room. -/
def Effect.takesOut (s : Socket) (c : Uuid) : Effect → Prop
  | .disconnect i => s.id = i
  | .leave i u c' => (s.id = i ∧ s.user = u) ∧ c' = c
  | .socketsLeave room c' => room ∈ s.rooms ∧ c' = c
  | _ => False

variable {w w' : World} {s : Socket} {f : Effect} {c u : Uuid}

theorem Effect.mem_sockets (h : s ∈ (f.apply w).sockets) : ∃ k ∈ w.sockets, s = f.socket k := by
  cases f with
  | socketsJoin rooms c =>
    obtain ⟨k,hk,rfl⟩ := List.mem_map.mp h
    exact ⟨k,hk,rfl⟩
  | socketsLeave room c =>
    obtain ⟨k,hk,rfl⟩ := List.mem_map.mp h
    exact ⟨k,hk,rfl⟩
  | join i u rooms =>
    obtain ⟨k,hk,rfl⟩ := List.mem_map.mp h
    exact ⟨k,hk,rfl⟩
  | leave i u c =>
    obtain ⟨k,hk,rfl⟩ := List.mem_map.mp h
    exact ⟨k,hk,rfl⟩
  | announce i u =>
    obtain ⟨k,hk,rfl⟩ := List.mem_map.mp h
    exact ⟨k,hk,rfl⟩
  | disconnect i => exact ⟨s,(List.mem_filter.mp h).1,rfl⟩
  | _ => exact ⟨s,h,rfl⟩

theorem Effect.socket_mem (h : s ∈ w.sockets) (hf : f ≠ .disconnect s.id) :
    f.socket s ∈ (f.apply w).sockets := by
  cases f with
  | socketsJoin rooms c => exact List.mem_map.mpr ⟨s,h,rfl⟩
  | socketsLeave room c => exact List.mem_map.mpr ⟨s,h,rfl⟩
  | join i u rooms => exact List.mem_map.mpr ⟨s,h,rfl⟩
  | leave i u c => exact List.mem_map.mpr ⟨s,h,rfl⟩
  | announce i u => exact List.mem_map.mpr ⟨s,h,rfl⟩
  | disconnect i => exact List.mem_filter.mpr ⟨h,decide_eq_true fun he : s.id = i => hf (by rw [he])⟩
  | _ => exact h

theorem AfterStep.mem_sockets (ha : AfterStep w w' f) (h : s ∈ w'.sockets) :
    ∃ k ∈ w.sockets, s = f.socket k := by
  rw [AfterStep] at ha
  rw [ha] at h
  exact Effect.mem_sockets (w := { w with pg := w'.pg }) h

theorem AfterStep.socket_mem (ha : AfterStep w w' f) (h : s ∈ w.sockets) (hf : f ≠ .disconnect s.id) :
    f.socket s ∈ w'.sockets := by
  rw [AfterStep] at ha
  rw [ha]
  exact Effect.socket_mem (w := { w with pg := w'.pg }) h hf

theorem AfterStep.connections (ha : AfterStep w w' f) : w'.connections = w.connections := by
  rw [AfterStep] at ha
  rw [ha]
  cases f <;> rfl

namespace Effect

/-- A command joins, leaves or announces a socket, or leaves it alone. -/
theorem socket_cases (f : Effect) (s : Socket) :
    f.socket s = s ∨ (∃ rooms, f.socket s = s.join rooms) ∨ (∃ c, f.socket s = s.leave c) ∨
      f.socket s = { s with announced := true } := by
  cases f with
  | socketsJoin rooms c =>
    simp only [socket]
    split
    · exact .inr (.inl ⟨_,rfl⟩)
    · exact .inl rfl
  | socketsLeave room c =>
    simp only [socket]
    split
    · exact .inr (.inr (.inl ⟨_,rfl⟩))
    · exact .inl rfl
  | join i u rooms =>
    simp only [socket]
    split
    · exact .inr (.inl ⟨_,rfl⟩)
    · exact .inl rfl
  | leave i u c =>
    simp only [socket]
    split
    · exact .inr (.inr (.inl ⟨_,rfl⟩))
    · exact .inl rfl
  | announce i u =>
    simp only [socket]
    split
    · exact .inr (.inr (.inr rfl))
    · exact .inl rfl
  | _ => exact .inl rfl

@[simp] theorem socket_user (f : Effect) (s : Socket) : (f.socket s).user = s.user := by
  rcases f.socket_cases s with h | ⟨_,h⟩ | ⟨_,h⟩ | h <;> simp [h]

@[simp] theorem socket_id (f : Effect) (s : Socket) : (f.socket s).id = s.id := by
  rcases f.socket_cases s with h | ⟨_,h⟩ | ⟨_,h⟩ | h <;> simp [h]

/-- The personal rooms stay. -/
theorem socket_userRoom (h : .user u ∈ s.rooms) : .user u ∈ (f.socket s).rooms := by
  rcases f.socket_cases s with he | ⟨_,he⟩ | ⟨_,he⟩ | he <;> rw [he]
  · exact h
  · exact Socket.mem_join.mpr (.inl h)
  · exact Socket.mem_leave.mpr ⟨h,by simp⟩
  · exact h

theorem socket_kept (h : .channel c ∈ s.rooms ∨ c ∈ s.left) :
    .channel c ∈ (f.socket s).rooms ∨ c ∈ (f.socket s).left := by
  rcases f.socket_cases s with he | ⟨_,he⟩ | ⟨_,he⟩ | he <;> rw [he]
  · exact h
  · exact Socket.join_kept h
  · exact Socket.leave_kept h
  · exact h

/-- A socket is in a room because it was, or because it is called in. -/
theorem socket_channel (h : .channel c ∈ (f.socket s).rooms) : .channel c ∈ s.rooms ∨ f.putsIn s c := by
  cases f with
  | socketsJoin rooms c' =>
    simp only [socket] at h
    split at h
    · rename_i hin
      rcases Socket.mem_join.mp h with h | h
      · exact .inl h
      · exact .inr ⟨hin,(Room.channel.inj (List.mem_singleton.mp h)).symm⟩
    · exact .inl h
  | join i u rooms =>
    simp only [socket] at h
    split at h
    · rename_i hi
      exact (Socket.mem_join.mp h).imp_right fun h => ⟨hi,h⟩
    · exact .inl h
  | socketsLeave room c' =>
    simp only [socket] at h
    split at h
    · exact .inl (Socket.mem_leave.mp h).1
    · exact .inl h
  | leave i u c' =>
    simp only [socket] at h
    split at h
    · exact .inl (Socket.mem_leave.mp h).1
    · exact .inl h
  | announce i u =>
    simp only [socket] at h
    split at h <;> exact .inl h
  | _ => exact .inl h

/-- A socket stays in a room it is not taken out of. -/
theorem socket_stays (h : .channel c ∈ s.rooms) (hf : ¬ f.takesOut s c) :
    .channel c ∈ (f.socket s).rooms := by
  cases f with
  | socketsJoin rooms c' =>
    simp only [socket]
    split
    · exact Socket.mem_join.mpr (.inl h)
    · exact h
  | join i u rooms =>
    simp only [socket]
    split
    · exact Socket.mem_join.mpr (.inl h)
    · exact h
  | socketsLeave room c' =>
    simp only [socket]
    split
    · rename_i hr
      exact Socket.mem_leave.mpr ⟨h,fun he => hf ⟨hr,(Room.channel.inj he).symm⟩⟩
    · exact h
  | leave i u c' =>
    simp only [socket]
    split
    · rename_i hi
      exact Socket.mem_leave.mpr ⟨h,fun he => hf ⟨hi,(Room.channel.inj he).symm⟩⟩
    · exact h
  | announce i u =>
    simp only [socket]
    split <;> exact h
  | _ => exact h

/-- A personal room is entered with a `join` of that room. -/
theorem userRoom_of_socket (h : .user u ∈ (f.socket s).rooms) : .user u ∈ s.rooms ∨
    ∃ i v rooms, f = .join i v rooms ∧ (s.id = i ∧ s.user = v) ∧ .user u ∈ rooms := by
  cases f with
  | join i v rooms =>
    simp only [socket] at h
    split at h
    · rename_i hi
      exact (Socket.mem_join.mp h).imp_right fun h => ⟨i,v,rooms,rfl,hi,h⟩
    · exact .inl h
  | socketsJoin rooms c' =>
    simp only [socket] at h
    split at h
    · exact .inl ((Socket.mem_join.mp h).resolve_right (by simp))
    · exact .inl h
  | socketsLeave room c' =>
    simp only [socket] at h
    split at h
    · exact .inl (Socket.mem_leave.mp h).1
    · exact .inl h
  | leave i v c' =>
    simp only [socket] at h
    split at h
    · exact .inl (Socket.mem_leave.mp h).1
    · exact .inl h
  | announce i v =>
    simp only [socket] at h
    split at h <;> exact .inl h
  | _ => exact .inl h

theorem socket_announced (h : (f.socket s).announced = true) : s.announced = true ∨
    ∃ i v, f = .announce i v ∧ s.id = i ∧ s.user = v := by
  cases f with
  | announce i v =>
    simp only [socket] at h
    split at h
    · rename_i hi
      exact .inr ⟨i,v,rfl,hi.1,hi.2⟩
    · exact .inl h
  | socketsJoin rooms c' =>
    simp only [socket] at h
    split at h <;> exact .inl h
  | join i v rooms =>
    simp only [socket] at h
    split at h <;> exact .inl h
  | socketsLeave room c' =>
    simp only [socket] at h
    split at h
    · exact .inl (by simpa using h)
    · exact .inl h
  | leave i v c' =>
    simp only [socket] at h
    split at h
    · exact .inl (by simpa using h)
    · exact .inl h
  | _ => exact .inl h

end Effect

end ZevraServer
