import ZynexOS.Kern.Proof.FreeEnvs
import ZynexOS.Kern.Proof.IpcDelivery
import ZynexOS.Lib.Fsipc

/-! # Replies of the file server -/

namespace ZynexOS

open Library Function

theorem narrow_signExtend (x : BitVec 32) : (x.signExtend 64).setWidth 32 = x := by
  apply BitVec.eq_of_getLsbD_eq
  intro i hi
  rw [BitVec.getLsbD_setWidth, BitVec.getLsbD_signExtend]
  simp [hi]
  omega

/-! ### What the calls do to the environments -/

namespace Kern

variable {k k' : Kern} {e t : Nat} {envid : BitVec 32} {exit : SysExit}
variable {pg : Word}

def Names (k : Kern) (e : Nat) (envid : BitVec 32) (t : Nat) : Prop :=
  envid = 0 ∧ t = e ∨
    t = envx envid ∧ (k.envs t).envId = envid ∧ (k.envs t).envStatus ≠ .free

theorem names_of_envid2env (hcur : k.curenv = some e)
    (hfound : k.envid2env envid false = .ok (some t)) : Names k e envid t := by
  unfold envid2env at hfound
  split at hfound
  · next hzero =>
      obtain ⟨c, hc, hrest⟩ := bind_eq_ok.mp hfound
      cases pure_eq_ok.mp hrest
      cases hcur.symm.trans (cur_eq_ok.mp hc)
      exact .inl ⟨hzero, rfl⟩
  · dsimp only at hfound
    split at hfound
    · cases hfound
    · next hlive =>
        obtain ⟨hlive, hid⟩ := not_or.mp hlive
        rw [if_neg (by simp)] at hfound
        cases hfound
        exact .inr ⟨rfl, not_not.mp hid, hlive⟩

def Sets (k k' : Kern) (e : Nat) (env : Env) : Prop := k'.envs = update k.envs e env

theorem Sets.self {env : Env} (hsets : Sets k k' e env) : k'.envs e = env := by
  rw [hsets, update_self]

theorem Sets.of_ne {env : Env} (hsets : Sets k k' e env) (hne : t ≠ e) : k'.envs t = k.envs t := by
  rw [hsets, update_of_ne hne]

theorem ipcSendOnce_cases {val : Word} {perm : BitVec 32}
    (hsend : k.ipcSendOnce e envid val pg perm = .ok (exit, k')) :
    (∃ r, exit = .ret r ∧ r < 0 ∧ k'.envs = k.envs) ∨
    ∃ t sent, exit = .ret 0 ∧ Names k e envid t ∧ (k.envs t).envIpcRecving = true ∧
      (pageArg pg < utop → sent = perm) ∧
      Sets k k' t (ipcDeliver (k.envs t) (k.envs e).envId ((val.setWidth 32).setWidth 64) sent) := by
  have hno : Sysno.ofWord 12 = some .ipcTrySend := by decide
  unfold ipcSendOnce callBy at hsend
  cases exit with
  | resched =>
      simp only [syscall, hno] at hsend
      obtain ⟨⟨ret, mid⟩, -, hrest⟩ := bind_eq_ok.mp hsend
      cases pure_eq_ok.mp hrest
  | ret r =>
      have hcall := syscall_ipcTrySend hno hsend
      rw [narrow_signExtend, narrow_signExtend] at hcall
      obtain ⟨hneg, vm, rfl⟩ | ⟨t, c, rfl, hfound, hrecv, hcur, hdone⟩ := sysIpcTrySend_cases hcall
      · exact .inl ⟨r, rfl, hneg, rfl⟩
      · have hnames : Names { k with curenv := some e } e envid t := names_of_envid2env rfl hfound
        cases hcur
        obtain ⟨habove, rfl⟩ | ⟨hbelow, pp, vm, -, rfl⟩ := hdone
        · exact .inr ⟨t, 0, rfl, hnames, hrecv, fun h => absurd h habove, rfl⟩
        · exact .inr ⟨t, perm, rfl, hnames, hrecv, fun _ => rfl, rfl⟩

theorem ipcRecvCall_cases (hrecv : k.ipcRecvCall e pg = .ok (exit, k')) :
    (exit = .ret 0 ∧ badDstva (pageArg pg) = true ∧ k'.envs = k.envs) ∨
    exit = .resched ∧ ∃ dstva, Sets k k' e { k.envs e with
      envIpcDstva := dstva, envIpcRecving := true, envStatus := .notRunnable } := by
  have hno : Sysno.ofWord 13 = some .ipcRecv := by decide
  unfold ipcRecvCall callBy at hrecv
  simp only [syscall, hno] at hrecv
  obtain ⟨⟨exit', mid⟩, hcall, hrest⟩ := bind_eq_ok.mp hrecv
  obtain ⟨c, hcur, hcall⟩ := bind_eq_ok.mp hcall
  cases cur_eq_ok.mp hcur
  dsimp only at hcall
  split at hcall
  · next hold =>
      cases pure_eq_ok.mp hcall
      cases pure_eq_ok.mp hrest
      refine .inr ⟨rfl, (k.envs e).envIpcDstva, ?_⟩
      show update k.envs e _ = _
      rw [← hold]
  · split at hcall
    · next hbelow =>
        split at hcall
        · next hbad =>
            cases pure_eq_ok.mp hcall
            cases pure_eq_ok.mp hrest
            exact .inl ⟨rfl, decide_eq_true ⟨hbelow, hbad⟩, rfl⟩
        · cases pure_eq_ok.mp hcall
          cases pure_eq_ok.mp hrest
          exact .inr ⟨rfl, _, rfl⟩
    · cases pure_eq_ok.mp hcall
      cases pure_eq_ok.mp hrest
      exact .inr ⟨rfl, _, rfl⟩

theorem callBy_pageUnmap_envs {a1 a2 a3 a4 : Word} (hcall : k.callBy e 6 a1 a2 a3 a4 = .ok (exit, k')) :
    k'.envs = k.envs := by
  have hno : Sysno.ofWord 6 = some .pageUnmap := by decide
  unfold callBy at hcall
  simp only [syscall, hno] at hcall
  obtain ⟨⟨ret, mid⟩, hunmap, hrest⟩ := bind_eq_ok.mp hcall
  obtain ⟨vm, rfl⟩ := sysPageUnmap_envs hunmap
  cases pure_eq_ok.mp hrest
  rfl

/-- The entries keep their ids and types, and none becomes free or stops to be. -/
structure SameTable (k k' : Kern) : Prop where
  id : ∀ e, (k'.envs e).envId = (k.envs e).envId
  type : ∀ e, (k'.envs e).envType = (k.envs e).envType
  free : ∀ e, (k'.envs e).envStatus = .free ↔ (k.envs e).envStatus = .free

theorem SameTable.of_envs (hsame : k'.envs = k.envs) : SameTable k k' :=
  ⟨fun e => by rw [hsame], fun e => by rw [hsame], fun e => by rw [hsame]⟩

theorem SameTable.of_sets {env : Env} (hsets : Sets k k' e env) (hid : env.envId = (k.envs e).envId)
    (htype : env.envType = (k.envs e).envType)
    (hlive : env.envStatus ≠ .free ∧ (k.envs e).envStatus ≠ .free) : SameTable k k' := by
  refine ⟨fun t => ?_, fun t => ?_, fun t => ?_⟩ <;> by_cases ht : t = e
  · rw [ht, hsets.self, hid]
  · rw [hsets.of_ne ht]
  · rw [ht, hsets.self, htype]
  · rw [hsets.of_ne ht]
  · rw [ht, hsets.self]
    exact iff_of_false hlive.1 hlive.2
  · rw [hsets.of_ne ht]

theorem Names.live (hnames : Names k e envid t) (he : (k.envs e).envStatus ≠ .free) :
    (k.envs t).envStatus ≠ .free := by
  obtain ⟨-, rfl⟩ | ⟨-, -, hlive⟩ := hnames
  · exact he
  · exact hlive

theorem CanRun.live (hrun : k.CanRun e) : (k.envs e).envStatus ≠ .free := by
  obtain h | h := hrun <;> rw [h] <;> decide

theorem CanRun.not_blocked (hrun : k.CanRun e) : (k.envs e).envStatus ≠ .notRunnable := by
  obtain h | h := hrun <;> rw [h] <;> decide

theorem sameTable_of_send {val : Word} {perm : BitVec 32} (he : (k.envs e).envStatus ≠ .free)
    (hsend : k.ipcSendOnce e envid val pg perm = .ok (exit, k')) : SameTable k k' := by
  obtain ⟨-, -, -, hsame⟩ | ⟨t, sent, -, hnames, -, -, hsets⟩ := ipcSendOnce_cases hsend
  · exact .of_envs hsame
  · exact .of_sets hsets rfl rfl ⟨nofun, hnames.live he⟩

theorem sameTable_of_recv (he : (k.envs e).envStatus ≠ .free)
    (hrecv : k.ipcRecvCall e pg = .ok (exit, k')) : SameTable k k' := by
  obtain ⟨-, -, hsame⟩ | ⟨-, dstva, hsets⟩ := ipcRecvCall_cases hrecv
  · exact .of_envs hsame
  · exact .of_sets hsets rfl rfl ⟨nofun, he⟩

theorem SameTable.idsInOrder (hsame : SameTable k k') (hids : k.IdsInOrder) : k'.IdsInOrder := by
  intro e hlive
  rw [hsame.id]
  exact hids e fun h => hlive ((hsame.free e).mpr h)

theorem SameTable.firstFs (hsame : SameTable k k') (hfirst : k.FirstFs e) : k'.FirstFs e where
  inTable := hfirst.inTable
  type := (hsame.type e).trans hfirst.type
  first := fun e' hlt => (hsame.type e').symm ▸ hfirst.first e' hlt

theorem FirstFs.ipcFindFs_eq (hfirst : k.FirstFs e) : k.ipcFindFs = (k.envs e).envId := by
  have hfind : (List.range nEnv).find? (fun e => (k.envs e).envType = .fs) = some e := by
    rw [List.find?_range_eq_some]
    refine ⟨decide_eq_true hfirst.type, List.mem_range.mpr hfirst.inTable, fun e' hlt => ?_⟩
    simpa using hfirst.first e' hlt
  unfold ipcFindFs
  rw [hfind]

/-! ### Ids -/

end Kern

/-! ### How far a request has got -/

inductive Client.Quiet : Client → Prop where
  | idle : Client.idle.Quiet
  | sending (type : BitVec 32) {dstva : Word} (hgood : badDstva (pageArg dstva) = false) :
      (Client.sending type dstva).Quiet
  | panicked : Client.panicked.Quiet

inductive Client.Waits (env : Env) : Client → Prop where
  | sent {dstva : Word} (hgood : badDstva (pageArg dstva) = false)
      (hrecv : env.envIpcRecving = false) : Client.Waits env (.sent dstva)
  | receiving (hrecv : env.envIpcRecving = true) : Client.Waits env .receiving

structure Server.Free (cid : BitVec 32) (env : Env) (server : Server) : Prop where
  mailbox : server = .receiving → env.envIpcRecving = false → env.envIpcFrom ≠ cid
  reply : ∀ whom r pg perm, server = .replying whom r pg perm → whom ≠ cid

/-- The request at hand, when the client and the server have the environments `envC` and `envF`; `mine`
are the results that were computed for the client. -/
inductive Stage (cid : BitVec 32) (envC envF : Env) :
    Client → Server → List (BitVec 32) → List Answer → List (BitVec 32) → Prop where
  | quiet {client : Client} {server : Server} {mine : List Answer} (hclient : client.Quiet)
      (hserver : server.Free cid envF) (hrecv : envC.envIpcRecving = false) :
      Stage cid envC envF client server (mine.map Answer.req) mine (mine.map Answer.r)
  | taken {client : Client} {mine : List Answer} (hclient : client.Waits envC)
      (hrecv : envF.envIpcRecving = false) (hfrom : envF.envIpcFrom = cid)
      (hperm : envF.envIpcPerm &&& pteV.setWidth 32 ≠ 0) :
      Stage cid envC envF client .receiving
        (mine.map Answer.req ++ [envF.envIpcValue.setWidth 32]) mine (mine.map Answer.r)
  | answered {client : Client} {server : Server} {mine : List Answer} {a : Answer}
      (hclient : client.Waits envC)
      (hserver : (∃ pg perm, server = .replying cid a.r pg perm) ∨ server = .panicked) :
      Stage cid envC envF client server ((mine ++ [a]).map Answer.req) (mine ++ [a])
        (mine.map Answer.r)
  | delivered {server : Server} {mine : List Answer} {a : Answer} (hserver : server.Free cid envF)
      (hrecv : envC.envIpcRecving = false) (hreturn : envC.envTf.a0 = 0)
      (hvalue : envC.envIpcValue.setWidth 32 = a.r) :
      Stage cid envC envF .receiving server ((mine ++ [a]).map Answer.req) (mine ++ [a])
        (mine.map Answer.r)

namespace Stage

variable {cid : BitVec 32} {envC envF env : Env} {client : Client} {server : Server}
  {requests results : List (BitVec 32)} {mine : List Answer}
variable {dstva : Word}

theorem in_order (hstage : Stage cid envC envF client server requests mine results) :
    results <+: mine.map Answer.r ∧ mine.map Answer.req <+: requests := by
  cases hstage with
  | quiet _ _ _ => exact ⟨List.prefix_rfl, List.prefix_rfl⟩
  | taken _ _ _ _ => exact ⟨List.prefix_rfl, List.prefix_append _ _⟩
  | answered _ _ => exact ⟨List.map_append ▸ List.prefix_append _ _, List.prefix_rfl⟩
  | delivered _ _ _ _ => exact ⟨List.map_append ▸ List.prefix_append _ _, List.prefix_rfl⟩

theorem mailed (hstage : Stage cid envC envF client .receiving requests mine results)
    (hrecv : envF.envIpcRecving = true) (hfrom : env.envIpcFrom ≠ cid) :
    Stage cid envC env client .receiving requests mine results := by
  cases hstage with
  | quiet hclient _ hquiet => exact .quiet hclient ⟨fun _ _ => hfrom, nofun⟩ hquiet
  | taken _ hnot _ _ => exact absurd (hrecv.symm.trans hnot) (by decide)
  | answered _ hserver => simp at hserver
  | delivered _ hquiet hreturn hvalue => exact .delivered ⟨fun _ _ => hfrom, nofun⟩ hquiet hreturn hvalue

theorem moved {server' : Server} (hstage : Stage cid envC envF client server requests mine results)
    (hfree : server.Free cid envF) (hnot : server ≠ .panicked)
    (hfree' : server'.Free cid env) :
    Stage cid envC env client server' requests mine results := by
  cases hstage with
  | quiet hclient _ hquiet => exact .quiet hclient hfree' hquiet
  | taken _ hrecv hfrom _ => exact absurd hfrom (hfree.mailbox rfl hrecv)
  | answered _ hserver =>
      obtain ⟨pg, perm, rfl⟩ | rfl := hserver
      · exact absurd rfl (hfree.reply _ _ _ _ rfl)
      · exact absurd rfl hnot
  | delivered _ hquiet hreturn hvalue => exact .delivered hfree' hquiet hreturn hvalue

theorem request {type : BitVec 32}
    (hstage : Stage cid envC envF (.sending type dstva) server requests mine results)
    (hrecv : env.envIpcRecving = false) (hfrom : env.envIpcFrom = cid)
    (hperm : env.envIpcPerm &&& pteV.setWidth 32 ≠ 0) (hvalue : env.envIpcValue.setWidth 32 = type) :
    Stage cid envC env (.sent dstva) .receiving (requests ++ [type]) mine results := by
  subst hvalue
  cases hstage with
  | quiet hclient _ hquiet =>
      cases hclient with
      | sending _ hgood => exact .taken (.sent hgood hquiet) hrecv hfrom hperm
  | taken hclient _ _ _ => cases hclient
  | answered hclient _ => cases hclient

theorem quiet_of_sending {type : BitVec 32}
    (hstage : Stage cid envC envF (.sending type dstva) server requests mine results) :
    envC.envIpcRecving = false ∧ Stage cid envC envF .panicked server requests mine results := by
  cases hstage with
  | quiet _ hserver hquiet => exact ⟨hquiet, .quiet .panicked hserver hquiet⟩
  | taken hclient _ _ _ => cases hclient
  | answered hclient _ => cases hclient

theorem blocks (hstage : Stage cid envC envF (.sent dstva) server requests mine results) :
    badDstva (pageArg dstva) = false ∧ ∀ env : Env, env.envIpcRecving = true →
      Stage cid env envF .receiving server requests mine results := by
  cases hstage with
  | quiet hclient _ _ => cases hclient
  | taken hclient hserver hfrom hperm =>
      cases hclient with
      | sent hgood _ => exact ⟨hgood, fun _ h => .taken (.receiving h) hserver hfrom hperm⟩
  | answered hclient hserver =>
      cases hclient with
      | sent hgood _ => exact ⟨hgood, fun _ h => .answered (.receiving h) hserver⟩

theorem returns (hstage : Stage cid envC envF .receiving server requests mine results)
    (hrecv : envC.envIpcRecving = false) :
    envC.envTf.a0 = 0 ∧ Stage cid envC envF .idle server requests mine
      (results ++ [envC.envIpcValue.setWidth 32]) := by
  cases hstage with
  | quiet hclient _ _ => cases hclient
  | taken hclient _ _ _ =>
      cases hclient with
      | receiving hold => exact absurd (hold.symm.trans hrecv) (by decide)
  | answered hclient _ =>
      cases hclient with
      | receiving hold => exact absurd (hold.symm.trans hrecv) (by decide)
  | delivered hserver hquiet hreturn hvalue =>
      refine ⟨hreturn, ?_⟩
      rw [hvalue, ← List.map_singleton (f := Answer.r), ← List.map_append]
      exact .quiet .idle hserver hquiet

theorem at_hand (hstage : Stage cid envC envF client .receiving requests mine results)
    (hrecv : envF.envIpcRecving = false) (hfrom : envF.envIpcFrom = cid) :
    envF.envIpcPerm &&& pteV.setWidth 32 ≠ 0 ∧ ∀ (r : BitVec 32) (pg : Word) (perm : BitVec 32),
      Stage cid envC envF client (.replying cid r pg perm) requests
        (mine ++ [⟨cid, envF.envIpcValue.setWidth 32, r⟩]) results := by
  cases hstage with
  | quiet _ hserver _ => exact absurd hfrom (hserver.mailbox rfl hrecv)
  | taken hclient _ _ hperm =>
      refine ⟨hperm, fun r pg perm => ?_⟩
      have hanswered := @Stage.answered cid envC envF client (.replying cid r pg perm) mine
        ⟨cid, envF.envIpcValue.setWidth 32, r⟩ hclient (.inl ⟨pg, perm, rfl⟩)
      rwa [List.map_append] at hanswered
  | answered _ hserver => simp at hserver
  | delivered hserver _ _ _ => exact absurd hfrom (hserver.mailbox rfl hrecv)

theorem unanswered {r perm : BitVec 32} {pg : Word}
    (hstage : Stage cid envC envF client (.replying cid r pg perm) requests mine results) :
    Stage cid envC envF client .panicked requests mine results := by
  cases hstage with
  | quiet _ hserver _ => exact absurd rfl (hserver.reply _ _ _ _ rfl)
  | answered hclient _ => exact .answered hclient (.inr rfl)
  | delivered hserver _ _ _ => exact absurd rfl (hserver.reply _ _ _ _ rfl)

theorem reply {r perm : BitVec 32} {pg : Word}
    (hstage : Stage cid envC envF client (.replying cid r pg perm) requests mine results)
    (hold : envC.envIpcRecving = true) (hrecv : env.envIpcRecving = false)
    (hreturn : env.envTf.a0 = 0) (hvalue : env.envIpcValue.setWidth 32 = r) :
    Stage cid env envF client .replied requests mine results := by
  cases hstage with
  | quiet _ hserver _ => exact absurd rfl (hserver.reply _ _ _ _ rfl)
  | @answered _ _ _ a hclient hserver =>
      have hr : r = a.r := by simpa using hserver
      cases hclient with
      | sent _ hnot => exact absurd (hold.symm.trans hnot) (by decide)
      | receiving _ => exact .delivered ⟨nofun, nofun⟩ hrecv hreturn (hvalue.trans hr)
  | delivered hserver _ _ _ => exact absurd rfl (hserver.reply _ _ _ _ rfl)

end Stage

namespace FsSystem

variable {p : Parties} {s s' : FsSystem}
variable {pg : Word} {perm r : BitVec 32}

structure Inv (p : Parties) (s : FsSystem) : Prop where
  ids : s.kern.IdsInOrder
  firstFs : s.kern.FirstFs p.server
  clientLive : (s.kern.envs p.client).envStatus ≠ .free
  serverLive : (s.kern.envs p.server).envStatus ≠ .free
  clientBlocked : (s.kern.envs p.client).envIpcRecving = true →
    (s.kern.envs p.client).envStatus = .notRunnable
  serverBlocked : (s.kern.envs p.server).envIpcRecving = true →
    s.server = .receiving ∧ (s.kern.envs p.server).envStatus = .notRunnable
  fsenv : s.fsenv = 0 ∨ s.fsenv = (s.kern.envs p.server).envId
  found : ∀ type dstva, s.client = .sending type dstva → s.fsenv = (s.kern.envs p.server).envId
  stage : Stage (s.kern.envs p.client).envId (s.kern.envs p.client) (s.kern.envs p.server) s.client
    s.server s.requests (s.answersTo p) s.results

theorem inv_of_starts (hstarts : s.Starts p) : s.Inv p where
  ids := hstarts.ids
  firstFs := hstarts.firstFs
  clientLive := hstarts.clientLive.live
  serverLive := hstarts.serverLive.live
  clientBlocked := by simp [hstarts.clientQuiet]
  serverBlocked := by simp [hstarts.serverQuiet]
  fsenv := .inl hstarts.fsenv
  found := by simp [hstarts.client]
  stage := by
    unfold answersTo
    rw [hstarts.client, hstarts.server, hstarts.requests, hstarts.answers, hstarts.results]
    exact @Stage.quiet _ _ _ _ _ [] .idle ⟨nofun, nofun⟩ hstarts.clientQuiet

theorem Inv.ownReplies (hinv : s.Inv p) : s.OwnReplies p := by
  intro i r hresult
  obtain ⟨⟨later, hlater⟩, ⟨pending, hpending⟩⟩ := hinv.stage.in_order
  obtain ⟨hi, -⟩ := List.getElem?_eq_some_iff.mp hresult
  have hmine : ((s.answersTo p).map Answer.r)[i]? = some r := by
    rw [← hlater, List.getElem?_append_left hi]
    exact hresult
  rw [List.getElem?_map, Option.map_eq_some_iff] at hmine
  obtain ⟨a, ha, rfl⟩ := hmine
  refine ⟨a, ha, ?_, rfl⟩
  obtain ⟨hi', -⟩ := List.getElem?_eq_some_iff.mp ha
  rw [← hpending, List.getElem?_append_left (by simpa using hi'), List.getElem?_map, ha]
  rfl

/-! ### Steps -/

variable {k : Kern}

def clientId (p : Parties) (s : FsSystem) : BitVec 32 := (s.kern.envs p.client).envId

theorem Inv.next (hinv : s.Inv p) (hsame : Kern.SameTable s.kern s'.kern)
    (hclient : (s'.kern.envs p.client).envIpcRecving = true →
      (s'.kern.envs p.client).envStatus = .notRunnable)
    (hserver : (s'.kern.envs p.server).envIpcRecving = true →
      s'.server = .receiving ∧ (s'.kern.envs p.server).envStatus = .notRunnable)
    (hfsenv : s'.fsenv = s.fsenv)
    (hfound : ∀ type dstva, s'.client = .sending type dstva → s.client = .sending type dstva)
    (hstage : Stage (s.clientId p) (s'.kern.envs p.client) (s'.kern.envs p.server) s'.client
      s'.server s'.requests (s'.answers.filter fun a => a.whom = s.clientId p) s'.results) :
    s'.Inv p where
  ids := hsame.idsInOrder hinv.ids
  firstFs := hsame.firstFs hinv.firstFs
  clientLive := fun h => hinv.clientLive ((hsame.free _).mp h)
  serverLive := fun h => hinv.serverLive ((hsame.free _).mp h)
  clientBlocked := hclient
  serverBlocked := hserver
  fsenv := by
    rw [hfsenv, hsame.id]
    exact hinv.fsenv
  found := by
    intro type dstva h
    rw [hfsenv, hsame.id]
    exact hinv.found type dstva (hfound type dstva h)
  stage := by
    unfold answersTo
    rw [hsame.id]
    exact hstage

theorem Inv.frame (hinv : s.Inv p) (hsame : Kern.SameTable s.kern k)
    (hclient : k.envs p.client = s.kern.envs p.client)
    (hserver : k.envs p.server = s.kern.envs p.server) : Inv p { s with kern := k } := by
  refine hinv.next hsame ?_ ?_ rfl (fun _ _ h => h) ?_ <;> dsimp only
  · exact hclient.symm ▸ hinv.clientBlocked
  · exact hserver.symm ▸ hinv.serverBlocked
  · rw [hclient, hserver]
    exact hinv.stage

theorem Inv.id_ne (hinv : s.Inv p) {e : Nat} (hne : e ≠ p.client)
    (hlive : (s.kern.envs e).envStatus ≠ .free) : (s.kern.envs e).envId ≠ s.clientId p := by
  intro hid
  refine hne ?_
  rw [← hinv.ids e hlive, hid]
  exact hinv.ids _ hinv.clientLive

theorem Inv.send (hinv : s.Inv p) {e : Nat} {envid : BitVec 32} {val : Word}
    {exit : SysExit} (hother : s.Other p e)
    (hallowed : envid = s.clientId p → (s.kern.envs p.client).envIpcRecving = false)
    (hsend : s.kern.ipcSendOnce e envid val pg perm = .ok (exit, k)) :
    Inv p { s with kern := k } := by
  obtain ⟨-, hclient, hserver, hrun⟩ := hother
  have hsame := Kern.sameTable_of_send hrun.live hsend
  obtain ⟨-, -, -, henvs⟩ | ⟨t, sent, -, hnames, hrecv, -, hsets⟩ := Kern.ipcSendOnce_cases hsend
  · exact hinv.frame hsame (by rw [henvs]) (by rw [henvs])
  · have hnot : t ≠ p.client := by
      rintro rfl
      have hid : envid = s.clientId p := by
        obtain ⟨-, heq⟩ | ⟨-, hid, -⟩ := hnames
        · exact absurd heq.symm hclient
        · exact hid.symm
      rw [hallowed hid] at hrecv
      cases hrecv
    have hsameC := hsets.of_ne hnot.symm
    by_cases ht : t = p.server
    · subst ht
      obtain ⟨hreceiving, -⟩ := hinv.serverBlocked hrecv
      have hstage := hinv.stage
      rw [hreceiving] at hstage
      refine hinv.next hsame ?_ ?_ rfl (fun _ _ h => h) ?_ <;> dsimp only
      · rw [hsameC]
        exact hinv.clientBlocked
      · rw [hsets.self]
        exact nofun
      · rw [hsameC, hsets.self, hreceiving]
        exact hstage.mailed hrecv (hinv.id_ne hclient hrun.live)
    · exact hinv.frame hsame hsameC (hsets.of_ne (Ne.symm ht))

theorem Inv.recv (hinv : s.Inv p) {e : Nat} {exit : SysExit} (hother : s.Other p e)
    (hrecv : s.kern.ipcRecvCall e pg = .ok (exit, k)) : Inv p { s with kern := k } := by
  obtain ⟨-, hclient, hserver, hrun⟩ := hother
  have hsame := Kern.sameTable_of_recv hrun.live hrecv
  obtain ⟨-, -, henvs⟩ | ⟨-, dstva, hsets⟩ := Kern.ipcRecvCall_cases hrecv
  · exact hinv.frame hsame (by rw [henvs]) (by rw [henvs])
  · exact hinv.frame hsame (hsets.of_ne hclient.symm) (hsets.of_ne hserver.symm)

/-! ### Steps of the client -/

theorem Inv.call (hinv : s.Inv p) {type : BitVec 32} {dstva : Word} (hidle : s.client = .idle)
    (hgood : badDstva (pageArg dstva) = false) :
    Inv p { s with
      fsenv := if s.fsenv = 0 then s.kern.ipcFindFs else s.fsenv
      client := .sending type dstva } := by
  have hfs : (if s.fsenv = 0 then s.kern.ipcFindFs else s.fsenv) =
      (s.kern.envs p.server).envId := by
    split
    · exact hinv.firstFs.ipcFindFs_eq
    · next hset => exact hinv.fsenv.resolve_left hset
  have hstage := hinv.stage
  rw [hidle] at hstage
  refine ⟨hinv.ids, hinv.firstFs, hinv.clientLive, hinv.serverLive, hinv.clientBlocked,
    hinv.serverBlocked, .inr hfs, fun _ _ _ => hfs, ?_⟩
  change Stage _ _ _ (.sending type dstva) s.server s.requests (s.answersTo p) s.results
  generalize s.answersTo p = mine at hstage ⊢
  generalize s.requests = requests at hstage ⊢
  generalize s.results = results at hstage ⊢
  generalize s.server = server at hstage ⊢
  cases hstage with
  | quiet _ hserver hrecv => exact .quiet (.sending type hgood) hserver hrecv
  | taken hclient _ _ _ => cases hclient
  | answered hclient _ => cases hclient

theorem Inv.names_server (hinv : s.Inv p) {t : Nat} (hne : t ≠ p.client)
    (hnames : Kern.Names s.kern p.client (s.kern.envs p.server).envId t) : t = p.server := by
  obtain ⟨-, rfl⟩ | ⟨rfl, -, -⟩ := hnames
  · exact absurd rfl hne
  · exact hinv.ids _ hinv.serverLive

theorem setWidth_narrow (x : BitVec 32) :
    (((x.setWidth 64).setWidth 32).setWidth 64).setWidth 32 = x := by
  simp

theorem Inv.clientStep (hinv : s.Inv p) (hrun : s.kern.CanRun p.client)
    (hstep : s.clientStep p = some s') : s'.Inv p := by
  have hstage := hinv.stage
  unfold FsSystem.clientStep at hstep
  split at hstep
  · cases hstep
  · cases hstep
  · next type dstva hsending =>
      rw [hsending] at hstage
      obtain ⟨hquiet, hpanicked⟩ := hstage.quiet_of_sending
      split at hstep
      · next r k hsend =>
          have hsame := Kern.sameTable_of_send hrun.live hsend
          rw [hinv.found type dstva hsending] at hsend
          obtain ⟨r', hr, hneg, henvs⟩ | ⟨t, sent, hr, hnames, hrecv, hperm, hsets⟩ :=
            Kern.ipcSendOnce_cases hsend
          · cases hr
            rw [if_neg (by omega)] at hstep
            have hframe : Inv p { s with kern := k } :=
              hinv.frame hsame (by rw [henvs]) (by rw [henvs])
            split at hstep
            · cases hstep
              exact hframe
            · cases hstep
              refine hframe.next (.of_envs rfl) hframe.clientBlocked hframe.serverBlocked rfl nofun ?_
              dsimp only
              rw [henvs]
              unfold clientId
              dsimp only
              rw [henvs]
              exact hpanicked
          · cases hr
            rw [if_pos le_rfl] at hstep
            cases hstep
            have hne : t ≠ p.client := by
              rintro rfl
              rw [hquiet] at hrecv
              cases hrecv
            obtain rfl := hinv.names_server hne hnames
            obtain ⟨hreceiving, -⟩ := hinv.serverBlocked hrecv
            refine hinv.next hsame ?_ ?_ rfl nofun ?_ <;> dsimp only
            · rw [hsets.of_ne hne.symm]
              exact hinv.clientBlocked
            · rw [hsets.self]
              exact nofun
            · rw [hsets.of_ne hne.symm, hsets.self, hreceiving]
              refine hstage.request rfl rfl ?_ ?_
              · rw [hperm p.below]
                show fsipcPerm &&& pteV.setWidth 32 ≠ 0
                decide
              · exact setWidth_narrow type
      · cases hstep
  · next dstva hsent =>
      rw [hsent] at hstage
      split at hstep
      · next k hrecv =>
          have hsame := Kern.sameTable_of_recv hrun.live hrecv
          obtain ⟨hexit, -, -⟩ | ⟨-, dst, hsets⟩ := Kern.ipcRecvCall_cases hrecv
          · cases hexit
          · cases hstep
            refine hinv.next hsame ?_ ?_ rfl nofun ?_ <;> dsimp only
            · rw [hsets.self]
              exact fun _ => rfl
            · rw [hsets.of_ne p.distinct.symm]
              exact hinv.serverBlocked
            · rw [hsets.self, hsets.of_ne p.distinct.symm]
              exact hstage.blocks.2 _ rfl
      · next r k hrecv =>
          obtain ⟨-, hbad, -⟩ | ⟨hexit, -⟩ := Kern.ipcRecvCall_cases hrecv
          · exact absurd (hbad.symm.trans hstage.blocks.1) (by decide)
          · cases hexit
      · cases hstep
  · next hreceiving =>
      rw [hreceiving] at hstage
      cases hstep
      have hrecv : (s.kern.envs p.client).envIpcRecving = false := by
        rw [Bool.eq_false_iff]
        exact fun h => hrun.not_blocked (hinv.clientBlocked h)
      obtain ⟨hreturn, hstage⟩ := hstage.returns hrecv
      refine hinv.next (.of_envs rfl) hinv.clientBlocked hinv.serverBlocked rfl nofun ?_
      unfold finish ipcRecvValue
      rw [hreturn, if_neg (by decide)]
      exact hstage

/-! ### Steps of the server -/

theorem setWidth_signExtend_narrow (x : BitVec 32) :
    (((x.signExtend 64).setWidth 32).setWidth 64).setWidth 32 = x := by
  rw [narrow_signExtend]
  simp

theorem Inv.moved (hinv : s.Inv p) {server : Server} (hsame : Kern.SameTable s.kern k)
    (hclient : k.envs p.client = s.kern.envs p.client)
    (hfree : s.server.Free (s.clientId p) (s.kern.envs p.server)) (hnot : s.server ≠ .panicked)
    (hfree' : server.Free (s.clientId p) (k.envs p.server))
    (hblocked : (k.envs p.server).envIpcRecving = true →
      server = .receiving ∧ (k.envs p.server).envStatus = .notRunnable) :
    Inv p { s with kern := k, server := server } := by
  refine hinv.next hsame ?_ hblocked rfl (fun _ _ h => h) ?_ <;> dsimp only
  · exact hclient.symm ▸ hinv.clientBlocked
  · rw [hclient]
    exact hinv.stage.moved hfree hnot hfree'

theorem Inv.serve (hinv : s.Inv p)
    (hreceiving : s.server = .receiving) (hrecv : (s.kern.envs p.server).envIpcRecving = false)
    (hstep : s.serve p r pg perm = some s') : s'.Inv p := by
  have hstage := hinv.stage
  rw [hreceiving] at hstage
  have hblocked : ∀ server, (s.kern.envs p.server).envIpcRecving = true →
      server = Server.receiving ∧ (s.kern.envs p.server).envStatus = .notRunnable := by
    simp [hrecv]
  by_cases hfrom : (s.kern.envs p.server).envIpcFrom = s.clientId p
  · obtain ⟨hperm, hanswered⟩ := hstage.at_hand hrecv hfrom
    unfold FsSystem.serve at hstep
    dsimp only at hstep
    rw [if_neg hperm] at hstep
    split at hstep
    · cases hstep
    · cases hstep
      refine hinv.next (.of_envs rfl) hinv.clientBlocked (hblocked _) rfl (fun _ _ h => h) ?_
      dsimp only
      rw [List.filter_append, List.filter_cons_of_pos (by simpa using hfrom), List.filter_nil,
        hfrom]
      exact hanswered r pg perm
  · have hfree : s.server.Free (s.clientId p) (s.kern.envs p.server) :=
      ⟨fun _ _ => hfrom, by simp [hreceiving]⟩
    have hnot : s.server ≠ .panicked := by simp [hreceiving]
    unfold FsSystem.serve at hstep
    dsimp only at hstep
    split at hstep
    · cases hstep
      exact hinv.moved (.of_envs rfl) rfl hfree hnot ⟨nofun, nofun⟩ (hblocked _)
    · split at hstep
      · cases hstep
      · cases hstep
        refine hinv.next (.of_envs rfl) hinv.clientBlocked (hblocked _) rfl (fun _ _ h => h) ?_
        dsimp only
        rw [List.filter_append, List.filter_cons_of_neg (by simpa using hfrom), List.filter_nil,
          List.append_nil]
        refine hinv.stage.moved hfree hnot ⟨nofun, ?_⟩
        rintro _ _ _ _ ⟨⟩
        exact hfrom

theorem Inv.reply (hinv : s.Inv p) {whom : BitVec 32} {t : Nat}
    {sent : BitVec 32} (hreplying : s.server = .replying whom r pg perm)
    (hsame : Kern.SameTable s.kern k) (hnames : Kern.Names s.kern p.server whom t)
    (hrecv : (s.kern.envs t).envIpcRecving = true)
    (hsets : Kern.Sets s.kern k t (Kern.ipcDeliver (s.kern.envs t) (s.kern.envs p.server).envId
      (((r.signExtend 64).setWidth 32).setWidth 64) sent)) :
    Inv p { s with kern := k, server := .replied } := by
  have hquiet : (s.kern.envs p.server).envIpcRecving = false := by
    rw [Bool.eq_false_iff]
    intro h
    have hreceiving := (hinv.serverBlocked h).1
    rw [hreplying] at hreceiving
    cases hreceiving
  have hne : t ≠ p.server := by
    rintro rfl
    rw [hquiet] at hrecv
    cases hrecv
  have hsameF := hsets.of_ne hne.symm
  have hid : t = Kern.envx whom ∧ (s.kern.envs t).envId = whom := by
    obtain ⟨-, rfl⟩ | ⟨ht, hid, -⟩ := hnames
    · exact absurd rfl hne
    · exact ⟨ht, hid⟩
  have hblocked : (k.envs p.server).envIpcRecving = true →
      Server.replied = .receiving ∧ (k.envs p.server).envStatus = .notRunnable := by
    simp [hsameF, hquiet]
  have hstage := hinv.stage
  rw [hreplying] at hstage
  by_cases hwhom : whom = s.clientId p
  · subst hwhom
    have ht : t = p.client := hid.1.trans (hinv.ids _ hinv.clientLive)
    subst ht
    refine hinv.next hsame ?_ hblocked rfl (fun _ _ h => h) ?_ <;> dsimp only
    · rw [hsets.self]
      exact nofun
    · rw [hsets.self, hsameF]
      exact hstage.reply hrecv rfl rfl (setWidth_signExtend_narrow r)
  · have ht : t ≠ p.client := by
      rintro rfl
      exact hwhom hid.2.symm
    refine hinv.moved hsame (hsets.of_ne ht.symm) ⟨by simp [hreplying], ?_⟩ (by simp [hreplying])
      ⟨nofun, nofun⟩ hblocked
    rw [hreplying]
    rintro _ _ _ _ ⟨⟩
    exact hwhom

theorem Inv.giveUp (hinv : s.Inv p) {whom : BitVec 32}
    (hreplying : s.server = .replying whom r pg perm)
    (hquiet : (s.kern.envs p.server).envIpcRecving = false) (henvs : k.envs = s.kern.envs) :
    Inv p { s with kern := k, server := .panicked } := by
  have hblocked : (k.envs p.server).envIpcRecving = true →
      Server.panicked = .receiving ∧ (k.envs p.server).envStatus = .notRunnable := by
    simp [henvs, hquiet]
  by_cases hwhom : whom = s.clientId p
  · subst hwhom
    have hstage := hinv.stage
    rw [hreplying] at hstage
    refine hinv.next (.of_envs henvs) ?_ hblocked rfl (fun _ _ h => h) ?_ <;> dsimp only
    · exact henvs.symm ▸ hinv.clientBlocked
    · rw [henvs]
      exact hstage.unanswered
  · refine hinv.moved (.of_envs henvs) (by rw [henvs]) ⟨by simp [hreplying], ?_⟩
      (by simp [hreplying]) ⟨nofun, nofun⟩ hblocked
    rw [hreplying]
    rintro _ _ _ _ ⟨⟩
    exact hwhom

theorem Inv.serverStep (hinv : s.Inv p)
    (hrun : s.kern.CanRun p.server) (hstep : s.serverStep p r pg perm = some s') : s'.Inv p := by
  have hquiet : (s.kern.envs p.server).envIpcRecving = false := by
    rw [Bool.eq_false_iff]
    exact fun h => hrun.not_blocked (hinv.serverBlocked h).2
  unfold FsSystem.serverStep at hstep
  split at hstep
  · cases hstep
  · next hidle =>
      have hfree : s.server.Free (s.clientId p) (s.kern.envs p.server) := by
        rw [hidle]
        exact ⟨nofun, nofun⟩
      split at hstep
      · next k hrecv =>
          have hsame := Kern.sameTable_of_recv hrun.live hrecv
          obtain ⟨hexit, -⟩ | ⟨-, dstva, hsets⟩ := Kern.ipcRecvCall_cases hrecv
          · cases hexit
          · cases hstep
            refine hinv.moved hsame (hsets.of_ne p.distinct) hfree (by simp [hidle]) ⟨?_, nofun⟩ ?_
            · rw [hsets.self]
              exact fun _ h => nomatch h
            · rw [hsets.self]
              exact fun _ => ⟨rfl, rfl⟩
      · next hrecv =>
          obtain ⟨-, hbad, -⟩ | ⟨hexit, -⟩ := Kern.ipcRecvCall_cases hrecv
          · exact absurd hbad (by decide)
          · cases hexit
      · cases hstep
  · next hreceiving => exact hinv.serve hreceiving hquiet hstep
  · next whom r pg perm hreplying =>
      split at hstep
      · next code k hsend =>
          have hsame := Kern.sameTable_of_send hrun.live hsend
          obtain ⟨code', hcode, hneg, henvs⟩ | ⟨t, sent, hcode, hnames, hrecv, -, hsets⟩ :=
            Kern.ipcSendOnce_cases hsend
          · cases hcode
            rw [if_neg (by omega)] at hstep
            have hframe : Inv p { s with kern := k } :=
              hinv.frame hsame (by rw [henvs]) (by rw [henvs])
            split at hstep
            · cases hstep
              exact hframe
            · cases hstep
              exact hinv.giveUp hreplying hquiet henvs
          · cases hcode
            rw [if_pos le_rfl] at hstep
            cases hstep
            exact hinv.reply hreplying hsame hnames hrecv hsets
      · cases hstep
  · next hreplied =>
      have hfree : s.server.Free (s.clientId p) (s.kern.envs p.server) := by
        rw [hreplied]
        exact ⟨nofun, nofun⟩
      split at hstep
      · next k hcall =>
          have henvs := Kern.callBy_pageUnmap_envs hcall
          cases hstep
          refine hinv.moved (.of_envs henvs) (by rw [henvs]) hfree (by simp [hreplied])
            ⟨nofun, nofun⟩ ?_
          simp [henvs, hquiet]
      · cases hstep

/-! ### Runs -/

theorem Inv.step (hinv : s.Inv p) {event : FsEvent} (hallowed : s.Undisturbed p event)
    (hstep : s.Step p event s') : s'.Inv p := by
  unfold Step exec at hstep
  cases event with
  | call type dstva =>
      dsimp only at hstep
      split at hstep
      · next hready =>
          cases hstep
          exact hinv.call hready.2 hallowed
      · cases hstep
  | client =>
      dsimp only at hstep
      split at hstep
      · next hrun => exact hinv.clientStep hrun hstep
      · cases hstep
  | server r pg perm =>
      dsimp only at hstep
      split at hstep
      · next hrun => exact hinv.serverStep hrun hstep
      · cases hstep
  | send e envid val pg perm =>
      dsimp only at hstep
      split at hstep
      · next hother =>
          split at hstep
          · next hsend =>
              cases hstep
              exact hinv.send hother hallowed hsend
          · cases hstep
      · cases hstep
  | recv e pg =>
      dsimp only at hstep
      split at hstep
      · next hother =>
          split at hstep
          · next hrecv =>
              cases hstep
              exact hinv.recv hother hrecv
          · cases hstep
      · cases hstep
  | memory vm =>
      cases hstep
      exact hinv.frame (.of_envs rfl) rfl rfl

/-- In a run in which nobody disturbs the client, every call of `fsipc` returns the result that the
server computed for it. -/
theorem ownReplies_of_reachable (hreach : Reachable (Starts p) (Step p) (Undisturbed p) s) :
    s.OwnReplies p := by
  have hinv : s.Inv p := hreach.invariant (P := Inv p) (fun _ => inv_of_starts)
    fun _ _ _ hinv => hinv.step
  exact hinv.ownReplies

/-! ### A third environment sends to the client -/

def threeEnvs : Kern where
  vm := Vm.ofEntries
    [(entryAddr (pageKva 1) 0, pdeEntry (page2pa 2) ||| pteV),
      (entryAddr (pageKva 2) 0, pdeEntry (page2pa 3) ||| pteV),
      (entryAddr (pageKva 3) 4, pdeEntry (page2pa 4) ||| pteV),
      (entryAddr (pageKva 4) 1, pteEntry (page2pa 5) ||| pteU ||| pteW ||| pteR ||| pteV),
      (entryAddr (pageKva 6) 0, pdeEntry (page2pa 7) ||| pteV),
      (entryAddr (pageKva 7) 0, pdeEntry (page2pa 8) ||| pteV),
      (entryAddr (pageKva 8) 127, pdeEntry (page2pa 9) ||| pteV)]
  kernPgdir := pageKva 0
  envsAddr := uenvs
  envs := fun e =>
    if e = 0 then { envId := 0x1000, envStatus := .runnable, envPgdir := pageKva 1 }
    else if e = 1 then
      { envId := 0x1001, envStatus := .runnable, envPgdir := pageKva 6, envType := .fs }
    else if e = 2 then { envId := 0x1002, envStatus := .runnable, envPgdir := pageKva 10 }
    else {}
  envFreeList := some 3
  curenv := none
  sstatus := 0

def twoParties : Parties where
  client := 0
  server := 1
  fsipcbuf := 0x801000
  distinct := by decide
  below := by decide

def beforeCall : FsSystem := ⟨threeEnvs, 0, .idle, .idle, [], [], []⟩

theorem starts_beforeCall : beforeCall.Starts twoParties := by
  refine ⟨fun e hlive => ?_, ⟨by decide, rfl, ?_⟩, .inl rfl, .inl rfl, rfl, rfl, rfl, rfl, rfl, rfl, rfl,
    rfl⟩
  · by_cases h0 : e = 0
    · subst h0
      decide
    · by_cases h1 : e = 1
      · subst h1
        decide
      · by_cases h2 : e = 2
        · subst h2
          decide
        · refine absurd ?_ hlive
          show (if e = 0 then _ else if e = 1 then _ else if e = 2 then _ else ({} : Env)).envStatus = _
          rw [if_neg h0, if_neg h1, if_neg h2]
  · intro e he
    obtain rfl : e = 0 := by
      have : e < 1 := he
      omega
    nofun

def askScript : List FsEvent := [.call 2 0, .server 0 0 0, .client, .client]

def lastOf (events : List FsEvent) : Option FsSystem :=
  events.foldlM (fun s event => s.exec twoParties event) beforeCall

theorem reachable_of_lastOf {allowed : FsSystem → FsEvent → Prop} {events : List FsEvent}
    (hallowed : ∀ s, ∀ event ∈ events, allowed s event) (hrun : lastOf events = some s) :
    Reachable (Starts twoParties) (Step twoParties) allowed s := by
  have hstart : Reachable (Starts twoParties) (Step twoParties) allowed beforeCall :=
    .start starts_beforeCall
  unfold lastOf at hrun
  generalize beforeCall = first at hstart hrun
  induction events generalizing first with
  | nil =>
      cases hrun
      exact hstart
  | cons event events ih =>
      rw [List.foldlM_cons] at hrun
      obtain ⟨mid, hmid, hrest⟩ := Option.bind_eq_some_iff.mp hrun
      exact ih (fun s event' h => hallowed s event' (List.mem_cons_of_mem _ h)) mid
        (hstart.next (hallowed first event List.mem_cons_self) hmid) hrest

/-- The value that environment 2 sends is what `fsipc` returns; the server has not even looked at the
request then. -/
theorem fsipc_returns_message :
    ∃ s, Reachable (Starts twoParties) (Step twoParties) (fun _ _ => True) s ∧
      s.results = [42] ∧ s.answers = [] ∧ ¬s.OwnReplies twoParties := by
  have hlast : (lastOf (askScript ++ [.send 2 0x1000 42 0 0, .client])).map
      (fun s => (s.results, s.answers)) = some ([42], []) := by decide +kernel
  obtain ⟨s, hrun, hobs⟩ := Option.map_eq_some_iff.mp hlast
  obtain ⟨hresults, hanswers⟩ := Prod.mk.inj hobs
  refine ⟨s, reachable_of_lastOf (fun _ _ _ => trivial) hrun, hresults, hanswers, fun hown => ?_⟩
  obtain ⟨a, ha, -, -⟩ := hown 0 42 (by rw [hresults]; rfl)
  unfold answersTo at ha
  rw [hanswers] at ha
  cases ha

/-- Left alone, the call returns the 7 that the server computes. -/
theorem fsipc_returns_reply : ∃ s : FsSystem, s.results = [7] ∧ s.OwnReplies twoParties := by
  have hlast : (lastOf (askScript ++ [.server 7 0 fsipcPerm, .server 0 0 0, .client])).map
      (fun s => s.results) = some [7] := by decide +kernel
  obtain ⟨s, hrun, hresults⟩ := Option.map_eq_some_iff.mp hlast
  refine ⟨s, hresults, ownReplies_of_reachable (reachable_of_lastOf ?_ hrun)⟩
  have hgood : badDstva (pageArg 0) = false := by decide
  intro s event hevent
  simp only [askScript, List.cons_append, List.nil_append, List.mem_cons, List.not_mem_nil,
    or_false] at hevent
  obtain rfl | rfl | rfl | rfl | rfl | rfl | rfl := hevent <;> first | exact hgood | exact True.intro

end FsSystem

end ZynexOS
