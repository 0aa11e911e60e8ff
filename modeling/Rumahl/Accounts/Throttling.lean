import Rumahl.Accounts.Passwords
import Rumahl.Data.Throttle

/-!
# How many passwords can be tried

The row of a password credential is a `Throttle`: an attempt that is allowed is one that the counter
admits, and nothing else but a success and a new password sets the counter back. Between two of
these, `attempts_throttled` bounds the attempts that are allowed, and the passwords that are
verified for them, in any window of time that is as long as the lockout.
-/

namespace Rumahl

open Effect List PasswordCredentialRow IdentityCall

namespace IdentityCall

/-- The time of an attempt to sign in as the user. -/
def attempted (user : UserId) : IdentityCall → Option Nat
  | beginAttempt userId attemptedAt _ => if userId = user then some attemptedAt.seconds else none
  | _ => none

theorem attempted_eq_some (h : attempted user c = some τ) :
    ∃ user' t policy, c = .beginAttempt user' t policy := by
  cases c with
  | beginAttempt user' t policy => exact ⟨user', t, policy, rfl⟩
  | _ => cases h

def isVerify : IdentityCall → Bool
  | verify _ _ => true
  | _ => false

/-- The call has recorded a success of the user or given them a new password. -/
def isReset (user : UserId) : (c : IdentityCall) → c.Answer → Bool
  | recordSuccess userId, .ok () => userId = user
  | replace credential, .ok () => credential.userId = user
  | provisionPasswordAccount _ credential, .ok () => credential.userId = user
  | replacePasswordAndRevokeSessions credential _ _, .ok () => credential.userId = user
  | _, _ => false

end IdentityCall

namespace IdentityEvent

variable {ι : Type}

/-- The time of an attempt of the user that was allowed. -/
def allowed (user : UserId) (e : IdentityEvent ι) : Option Nat :=
  if e.call.isAllowed e.answer then e.call.attempted user else none

/-- The event is an attempt of the user in the window of time. -/
def attemptIn (user : UserId) (w length : Nat) (e : IdentityEvent ι) : Bool :=
  (e.call.attempted user).any fun t => w ≤ t && t < w + length

/-- The event is such an attempt, and it was allowed. -/
def allowedIn (user : UserId) (w length : Nat) (e : IdentityEvent ι) : Bool :=
  (e.allowed user).any fun t => w ≤ t && t < w + length

end IdentityEvent

open IdentityEvent

/-! ## The counter of a user -/

def PasswordCredentialRow.throttle (row : PasswordCredentialRow) : Throttle :=
  ⟨row.failedAttempts, row.blockedUntil⟩

def IdentityTables.throttle (t : IdentityTables) (user : UserId) : Option Throttle :=
  (SqlitePasswordCredentialRepository.find t user).map PasswordCredentialRow.throttle

namespace IdentityCall.Does

open SqlitePasswordCredentialRepository

theorem throttle_congr (h : find t' user = find t user) : t'.throttle user = t.throttle user :=
  congrArg (Option.map throttle) h

/-- An attempt of the user that is allowed is one that the counter admits, any other call that is
not a reset leaves the counter as it is or drops it. -/
theorem throttle (h : Does t c a t') (hreset : c.isReset user a = false)
    (hpolicy : ∀ user t p, c = .beginAttempt user t p → p = policy) :
    (∃ s τ, c.isAllowed a = true ∧ c.attempted user = some τ ∧ t.throttle user = some s ∧
        ¬s.Blocked τ ∧ t'.throttle user =
          some (s.next policy.maximumAttempts policy.lockoutSeconds τ)) ∨
      (c.isAllowed a = true → c.attempted user = none) ∧
        (t'.throttle user = t.throttle user ∨ t'.throttle user = none) := by
  cases h with
  | unchanged hnot =>
    exact .inr ⟨fun h => by simp [isAllowed_of_not_writes hnot] at h, .inl rfl⟩
  | @attempted user' row at_ p blocked credential hf hfree hnext =>
    obtain rfl := hpolicy user' at_ p rfl
    obtain rfl := Table.key_of_find hf
    by_cases hu : user = row.userId
    · subst hu
      refine .inl ⟨row.throttle, at_.seconds, rfl, by simp [IdentityCall.attempted],
        congrArg (Option.map PasswordCredentialRow.throttle) hf,
        fun ⟨b, hb, hlt⟩ => Nat.not_lt.mpr (hfree b hb) hlt, ?_⟩
      refine (congrArg (Option.map PasswordCredentialRow.throttle) (find_put_self ?_ hf)).trans ?_
      · rfl
      · rw [nextBlockedUntil_eq_ok hnext]
        rfl
    · refine .inr ⟨fun _ => ?_, .inl (throttle_congr (find_put_ne hu))⟩
      simp [IdentityCall.attempted, Ne.symm hu]
  | succeeded hf =>
    have hne := Ne.symm (of_decide_eq_false hreset)
    exact .inr ⟨(nomatch ·), .inl (throttle_congr (find_put_ne (Table.key_of_find hf ▸ hne)))⟩
  | replaced hf =>
    have hne := Ne.symm (of_decide_eq_false hreset)
    exact .inr ⟨(nomatch ·), .inl (throttle_congr (find_put_ne hne))⟩
  | enrolled hf =>
    have hne := Ne.symm (of_decide_eq_false hreset)
    exact .inr ⟨(nomatch ·), .inl (throttle_congr (find_append_ne hne))⟩
  | provisioned hf =>
    have hne := Ne.symm (of_decide_eq_false hreset)
    exact .inr ⟨(nomatch ·), .inl (throttle_congr (find_append_ne hne))⟩
  | changed hf hfold =>
    have hne := Ne.symm (of_decide_eq_false hreset)
    have hframe := SqliteLocalAccountAdministrationRepository.revokeSessions_frame hfold
    refine .inr ⟨(nomatch ·), .inl (throttle_congr ?_)⟩
    rw [find, hframe.1]
    exact find_put_ne hne
  | @removed user' =>
    refine .inr ⟨fun h => ?_, ?_⟩
    · cases h
    · by_cases hu : user = user'
      · subst hu
        rw [IdentityTables.throttle, find_remove_self]
        exact .inr rfl
      · exact .inl (throttle_congr (find_remove_ne hu))
  | created => exact .inr ⟨(nomatch ·), .inl rfl⟩
  | ended => exact .inr ⟨(nomatch ·), .inl rfl⟩

end IdentityCall.Does

/-! ## Attempts between two resets -/

section

variable {ι : Type} [DecidableEq ι] {S : PasswordServices}

/-- In a part of a run without a reset the counter admits, one after the other, the attempts that
are allowed. Without a credential there are none. -/
theorem Throttle.admits_allowed (user : UserId) {seg : List (IdentityEvent ι)}
    (hrun : S.Run P seg P') (hreset : ∀ e ∈ seg, e.call.isReset user e.answer = false)
    (hpolicy : ∀ e ∈ seg, ∀ user t p, e.call = .beginAttempt user t p → p = S.attemptPolicy) :
    match P.shared.throttle user with
    | some s => Throttle.Admits S.attemptPolicy.maximumAttempts S.attemptPolicy.lockoutSeconds s
      (seg.filterMap (allowed user))
    | none => seg.filterMap (allowed user) = [] := by
  induction hrun with
  | nil P =>
    split
    · trivial
    · rfl
  | @cons P _ _ _ _ hstep _ ih =>
    obtain ⟨hre, hreset⟩ := forall_mem_cons.mp hreset
    obtain ⟨hpe, hpolicy⟩ := forall_mem_cons.mp hpolicy
    replace ih := ih hreset hpolicy
    cases hstep with
    | @mk i c k a t' _ hp he =>
      obtain ⟨s, τ, hallowed, hτ, hs, hfree, hnext⟩ | ⟨hnot, hsame⟩ := he.does.throttle hre hpe
      · rw [filterMap_cons_some (b := τ) (by simp [allowed, hallowed, hτ]), hs]
        rw [hnext] at ih
        exact ⟨hfree, ih⟩
      · have hnone : allowed user ⟨i, c, a, P.shared, t'⟩ = none := by
          unfold allowed
          split
          · next h => exact hnot h
          · rfl
        rw [filterMap_cons_none hnone]
        obtain hsame | hgone := hsame
        · rwa [hsame] at ih
        · rw [hgone] at ih
          rw [ih]
          split
          · trivial
          · rfl

/-- A thread verifies one password at most, and its attempts are those it was allowed. -/
theorem PasswordServices.Run.verifies {requests : ι → IdentityRequest}
    (hrun : S.Run (S.pool requests t) es P) (user : UserId) :
    es.Pairwise (fun v v' => v.call.isVerify = true → v'.call.isVerify = true →
        v.thread ≠ v'.thread) ∧
      ∀ v ∈ es, v.call.isVerify = true → ∀ e ∈ es, e.thread = v.thread →
        ∀ τ, e.call.attempted user = some τ → e.call.isAllowed e.answer = true := by
  obtain ⟨-, hpermits⟩ := hrun.permits
  -- a verification is the second call of its thread, after an attempt that was allowed
  have hverify : ∀ es1 v es2, es = es1 ++ v :: es2 → v.call.isVerify = true →
      ∃ user t policy credential, Pool.traceOf v.thread es1 =
        [⟨.beginAttempt user t policy, Except.ok (.allowed credential)⟩] := by
    intro es1 v es2 hes hv
    have := hpermits es1 v es2 hes
    cases hc : v.call with
    | verify password record =>
      rw [hc] at this
      exact this
    | _ => simp [hc, isVerify] at hv
  constructor
  · refine pairwise_of_split fun es1 v' es2 hes v hv hverifies hverifies' hthread => ?_
    obtain ⟨_, _, _, _, htrace⟩ := hverify es1 v' es2 hes hverifies'
    have hmem := Pool.mem_traceOf.mpr ⟨v, hv, hthread, rfl⟩
    rw [htrace, mem_singleton] at hmem
    have hnot : v.call.isVerify = false :=
      congrArg (fun x : (c : IdentityCall) × c.Answer => x.1.isVerify) hmem
    rw [hverifies] at hnot
    cases hnot
  · intro v hv hverifies e he hthread τ hτ
    obtain ⟨es1, es2, rfl⟩ := append_of_mem hv
    obtain ⟨_, _, _, _, htrace⟩ := hverify es1 v es2 rfl hverifies
    obtain he | he := mem_append.mp he
    · have hmem := Pool.mem_traceOf.mpr ⟨e, he, hthread, rfl⟩
      rw [htrace, mem_singleton] at hmem
      exact congrArg (fun x : (c : IdentityCall) × c.Answer => x.1.isAllowed x.2) hmem
    · -- an attempt is the first call of its thread
      obtain ⟨user', t, policy, hcall⟩ := attempted_eq_some hτ
      obtain rfl | he := mem_cons.mp he
      · rw [hcall] at hverifies
        cases hverifies
      · obtain ⟨es3, es4, rfl⟩ := append_of_mem he
        have hfirst := hpermits (es1 ++ v :: es3) e es4 (by simp)
        rw [hcall] at hfirst
        have hmem := Pool.mem_traceOf.mpr
          ⟨v, mem_append_right es1 (mem_cons_self (l := es3)), hthread.symm, rfl⟩
        rw [hfirst.1] at hmem
        cases hmem

omit [DecidableEq ι] in
theorem IdentityEvent.allowedIn_eq (user : UserId) (w length : Nat) :
    allowedIn (ι := ι) user w length = fun e =>
      ((e.allowed user).map fun t => decide (w ≤ t ∧ t < w + length)).getD false := by
  funext e
  unfold allowedIn
  cases e.allowed user <;> simp

/-- Any number of requests run next to each other, and in the part `seg` of the run no success of
the user is recorded and their password is not set. If the times of their attempts do not go back,
every window as long as the lockout has at most as many attempts that are allowed as the policy
says, and at most as many passwords are verified for the attempts of the window. -/
theorem PasswordServices.attempts_throttled (S : PasswordServices) (requests : ι → IdentityRequest)
    (t : IdentityTables) (es1 seg es2 : List (IdentityEvent ι))
    (P : Pool ι IdentityCall IdentityCall.Answer IdentityError IdentityResult IdentityTables Unit)
    (hrun : S.Run (S.pool requests t) (es1 ++ seg ++ es2) P)
    (hreset : ∀ e ∈ seg, e.call.isReset user e.answer = false)
    (htimes : (seg.filterMap fun e => e.call.attempted user).Pairwise (· ≤ ·)) (w : Nat) :
    let policy := S.attemptPolicy
    seg.countP (allowedIn user w policy.lockoutSeconds) ≤ policy.maximumAttempts ∧
      ((es1 ++ seg ++ es2).countP fun v => v.call.isVerify && seg.any fun e =>
        e.thread = v.thread && attemptIn user w policy.lockoutSeconds e) ≤
          policy.maximumAttempts := by
  intro policy
  obtain ⟨P2, hrun2, -⟩ := Pool.Run.append_inv hrun
  obtain ⟨P1, -, hseg⟩ := Pool.Run.append_inv hrun2
  have hallowed : seg.countP (allowedIn user w policy.lockoutSeconds) ≤
      policy.maximumAttempts := by
    have hpolicy : ∀ e ∈ seg, ∀ user t p, e.call = .beginAttempt user t p → p = policy := by
      intro e he user t p hcall
      obtain ⟨seg1, seg2, rfl⟩ := append_of_mem he
      have := hrun.permits.2 (es1 ++ seg1) e (seg2 ++ es2) (by simp)
      rw [hcall] at this
      exact this.2
    have hadmits := Throttle.admits_allowed user hseg hreset hpolicy
    have hsorted : (seg.filterMap (allowed user)).Pairwise (· ≤ ·) := by
      unfold allowed
      rw [← filterMap_filter]
      exact htimes.sublist (filter_sublist.filterMap _)
    rw [allowedIn_eq, ← countP_filterMap]
    split at hadmits
    · exact Throttle.window_le policy.maximumAttempts_pos hsorted hadmits w
    · rw [hadmits]
      exact Nat.zero_le _
  refine ⟨hallowed, ?_⟩
  -- the verifications are in different threads, and each has an attempt that was allowed
  obtain ⟨hdistinct, hfor⟩ := hrun.verifies user
  rw [countP_eq_length_filter] at hallowed ⊢
  refine Nat.le_trans ?_ hallowed
  rw [← length_map (f := PoolEvent.thread), ← length_map (f := PoolEvent.thread)]
  refine (List.Nodup.subperm ?_ fun i hi => ?_).length_le
  · refine pairwise_map.mpr ((hdistinct.sublist filter_sublist).imp_of_mem ?_)
    intro v v' hv hv' hne
    have hverify := (Bool.and_eq_true_iff.mp (mem_filter.mp hv).2).1
    have hverify' := (Bool.and_eq_true_iff.mp (mem_filter.mp hv').2).1
    exact hne hverify hverify'
  · obtain ⟨v, hv, rfl⟩ := mem_map.mp hi
    obtain ⟨hv, hverify⟩ := mem_filter.mp hv
    obtain ⟨hverify, hattempt⟩ := Bool.and_eq_true_iff.mp hverify
    obtain ⟨e, he, hattempt⟩ := any_eq_true.mp hattempt
    simp only [Bool.and_eq_true, decide_eq_true_eq] at hattempt
    obtain ⟨hthread, hin⟩ := hattempt
    obtain ⟨τ, hτ, hwindow⟩ := (Option.any_eq_true _ _).mp hin
    have hes : e ∈ es1 ++ seg ++ es2 := by simp [he]
    have hyes := hfor v hv hverify e hes hthread τ hτ
    refine mem_map.mpr ⟨e, mem_filter.mpr ⟨he, ?_⟩, hthread⟩
    simpa [allowedIn, allowed, hyes, hτ] using hwindow

end

/-- Six attempts with a wrong password next to each other. -/
def wrongGuesses (i : Fin 6) : IdentityRequest :=
  .authenticate kaiState "Kai" "not kai's password" ⟨100 + i⟩

def wrongGuessesRun :=
  Pool.exec (respond plainServices.lib)
    ((finRange 6 ++ (finRange 6).reverse).map fun i => (i, ⟨""⟩, false))
    (plainServices.pool wrongGuesses kaiTables)

/-- The sixth attempt within the window is not allowed any more. -/
theorem attempts_throttled_wrongGuesses :
    wrongGuessesRun.1.countP (attemptIn ⟨1⟩ 90 30) = 6 ∧
      wrongGuessesRun.1.countP (allowedIn ⟨1⟩ 90 30) = 5 ∧
      (wrongGuessesRun.1.countP fun v => v.call.isVerify && wrongGuessesRun.1.any fun e =>
        e.thread = v.thread && attemptIn ⟨1⟩ 90 30 e) ≤ 5 := by
  have hrun : plainServices.Run (plainServices.pool wrongGuesses kaiTables)
      ([] ++ wrongGuessesRun.1 ++ []) wrongGuessesRun.2 := by
    rw [nil_append, append_nil]
    exact plainServices.exec_run _ _
  have hreset : ∀ e ∈ wrongGuessesRun.1, e.call.isReset ⟨1⟩ e.answer = false := by decide +kernel
  have hthrottled := (plainServices.attempts_throttled wrongGuesses kaiTables [] _ [] _ hrun hreset
    (by decide +kernel) 90).2
  rw [nil_append, append_nil] at hthrottled
  exact ⟨by decide +kernel, by decide +kernel, hthrottled⟩

end Rumahl
