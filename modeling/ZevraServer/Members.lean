import ZevraServer.Statements

/-!
# `ChannelMembersService`

The read-through cache of membership rows. A constructor of a machine is the next
awaited command of the call; the last constructors are its results.
-/

namespace ZevraServer

open ReadCommitted

/-- `getMembers`. -/
inductive GetMembers
  | cached (channelId : Uuid)
  | select (channelId : Uuid)
  | store (channelId : Uuid) (members : List Uuid)
  | done (members : List Uuid)
  | failed (err : DbError)
  deriving DecidableEq, Repr

def GetMembers.step (ch : Choice) (w : World) : GetMembers → Option (GetMembers × World)
  | .cached c =>
    if ch.fail then some (.select c,w)
    else if (w.redis.channelMembers c).isEmpty then some (.select c,w)
    else some (.done (w.redis.channelMembers c),w)
  | .select c =>
    if ch.fail then some (.failed aborted,w)
    else some (.store c (w.pg.db.memberIds c),w)
  | .store c ms =>
    if ch.fail then some (.done ms,w)
    else some (.done ms,{ w with redis := w.redis.setMembers c ms })
  | .done _ => none
  | .failed _ => none

theorem GetMembers.step_pg {ch : Choice} {w w' : World} {g g' : GetMembers}
    (h : g.step ch w = some (g',w')) : w'.pg = w.pg := by
  unfold GetMembers.step at h
  split at h <;> try split_ifs at h
  all_goals simp only [Option.some.injEq,Prod.mk.injEq,reduceCtorEq] at h
  all_goals rw [← h.2]

/-- `isMember`. Without a ready client it reads the membership row; a failed `MULTI` falls
through to `getMembers`. -/
inductive IsMember
  | multi (channelId userId : Uuid)
  | members (call : GetMembers) (userId : Uuid)
  | row (channelId userId : Uuid)
  | done (result : Bool)
  | failed (err : DbError)
  deriving DecidableEq, Repr

/-- Return from the inner `getMembers`. -/
def IsMember.resume (u : Uuid) : GetMembers → IsMember
  | .done ms => .done (ms.contains u)
  | .failed err => .failed err
  | g => .members g u

def IsMember.step (ch : Choice) (w : World) : IsMember → Option (IsMember × World)
  | .multi c u =>
    if ch.fail then some (if ch.side then .row c u else .members (.cached c) u,w)
    else if (w.redis.channelMembers c).isEmpty then some (.members (.cached c) u,w)
    else some (.done ((w.redis.channelMembers c).contains u),w)
  | .members g u => (g.step ch w).map fun r => (.resume u r.1,r.2)
  | .row c u =>
    if ch.fail then some (.failed aborted,w)
    else some (.done (w.pg.db.membership? u c).isSome,w)
  | .done _ => none
  | .failed _ => none

theorem IsMember.step_pg {ch : Choice} {w w' : World} {q q' : IsMember}
    (h : q.step ch w = some (q',w')) : w'.pg = w.pg := by
  cases q with
  | members g u =>
    obtain ⟨⟨g',v⟩,hg,he⟩ := Option.map_eq_some_iff.mp h
    obtain ⟨_,rfl⟩ := Prod.mk.inj he
    exact g.step_pg hg
  | _ =>
    simp only [IsMember.step] at h
    try split_ifs at h
    all_goals simp only [Option.some.injEq,Prod.mk.injEq,reduceCtorEq] at h
    all_goals rw [← h.2]

end ZevraServer
