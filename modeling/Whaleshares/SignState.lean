import Mathlib
import Whaleshares.Program
import Whaleshares.Protocol

/-!
# Authorities of a transaction

`protocol/sign_state.cpp` and the authority check of `protocol/transaction.cpp`:
which keys signed, which accounts approved, and the walk over account authorities
down to a bounded depth. The walk marks the signatures that it uses, also along
branches that do not reach their threshold; a signature that is not marked at the
end makes the check fail.
-/

namespace Whaleshares.SignState

open Config Fc Protocol Program

/-- `sign_state` without the parameters that stay fixed; the two collections are
sets, with no duplicates. -/
structure State where
  /-- Keys that signed, each with whether the check has used it. -/
  providedSignatures : List (PublicKey × Bool)
  /-- Accounts that are known to approve. -/
  approvedBy : List AccountName

/-- `authority_getter` -/
abbrev AuthorityGetter := AccountName → Except Exc Authority

/-- `"temp"`, which approves everything. -/
def tempName : AccountName := .ofBytes (bytesOf "temp")

/-- `sign_state::sign_state` -/
def State.init (sigs : List PublicKey) : State := ⟨sigs.map (·, false), [tempName]⟩

section Check

variable (getActive : AuthorityGetter) (availableKeys : List PublicKey) (maxRecursion : ℕ)

/-- `signed_by` -/
def signedBy (k : PublicKey) (s : State) : Bool × State :=
  if s.providedSignatures.any (·.1 = k) then
    (true, { s with providedSignatures :=
      s.providedSignatures.map fun sig => if sig.1 = k then (k, true) else sig })
  else if availableKeys.contains k then
    (true, { s with providedSignatures := s.providedSignatures ++ [(k, true)] })
  else (false, s)

/-- The loop of `check_authority` over the keys: the weight reached and whether the
threshold is met. -/
def checkKeys (threshold : ℕ) : ℕ → List (PublicKey × ℕ) → State → (ℕ × Bool) × State
  | total, [], s => ((total, false), s)
  | total, (key, weight) :: rest, s =>
    match signedBy availableKeys key s with
    | (true, s) =>
      let total := (total + weight) % 2 ^ 32
      if threshold ≤ total then ((total, true), s) else checkKeys threshold total rest s
    | (false, s) => checkKeys threshold total rest s

/-- The loop of `check_authority` over the accounts. The first argument is the check
of another account's authority one level deeper, or nothing at the greatest depth. -/
def checkAccounts (check : Option (Authority → State → Except Exc (Bool × State)))
    (threshold : ℕ) : ℕ → List (AccountName × ℕ) → State → Except Exc (Bool × State)
  | total, [], s => .ok (decide (threshold ≤ total), s)
  | total, (account, weight) :: rest, s =>
    if s.approvedBy.contains account then
      let total := (total + weight) % 2 ^ 32
      if threshold ≤ total then .ok (true, s) else checkAccounts check threshold total rest s
    else
      match check with
      | none => checkAccounts check threshold total rest s
      | some check => do
        let auth ← getActive account
        let (approved, s) ← check auth s
        if approved then
          let s := { s with approvedBy := s.approvedBy ++ [account] }
          let total := (total + weight) % 2 ^ 32
          if threshold ≤ total then .ok (true, s)
          else checkAccounts (some check) threshold total rest s
        else checkAccounts (some check) threshold total rest s

/-- `check_authority` of an authority, with the levels that are left below it. -/
def checkAuthority : ℕ → Authority → State → Except Exc (Bool × State)
  | 0, auth, s =>
    match checkKeys availableKeys auth.weightThreshold 0 auth.keyAuths s with
    | ((_, true), s) => .ok (true, s)
    | ((total, false), s) =>
      checkAccounts getActive none auth.weightThreshold total auth.accountAuths s
  | depth + 1, auth, s =>
    match checkKeys availableKeys auth.weightThreshold 0 auth.keyAuths s with
    | ((_, true), s) => .ok (true, s)
    | ((total, false), s) =>
      checkAccounts getActive (some (checkAuthority depth)) auth.weightThreshold total
        auth.accountAuths s

/-- `check_authority` of an authority, from a getter that may throw. -/
def checkAuthorityOf (auth : Except Exc Authority) : StateT State (Except Exc) Bool := do
  let auth ← lift auth
  checkAuthority getActive availableKeys maxRecursion auth

/-- `check_authority` of an account. -/
def checkAccount (id : AccountName) : StateT State (Except Exc) Bool := fun s =>
  if s.approvedBy.contains id then .ok (true, s)
  else checkAuthorityOf getActive availableKeys maxRecursion (getActive id) s

/-- Whether one of several checks passes, in order. -/
def anyOf : List (StateT State (Except Exc) Bool) → StateT State (Except Exc) Bool
  | [] => pure false
  | check :: rest => do
    let passed ← check
    if passed then pure true else anyOf rest

/-- `remove_unused_signatures`: whether there were any. -/
def State.hasUnusedSignatures (s : State) : Bool := s.providedSignatures.any fun sig => !sig.2

end Check

section VerifyAuthority

variable (getActive getOwner getPosting : AuthorityGetter)

/-- `WLS_ASSERT( condition, kind, message )` -/
def wlsAssert (condition : Bool) (kind : ExcKind) (message : String) : Except Exc Unit :=
  if condition then .ok () else .error ⟨kind, message⟩

/-- The required accounts of a list of operations, without duplicates. -/
def requiredOf (f : RequiredAuthorities → List AccountName) (ops : List Operation) :
    List AccountName :=
  (ops.flatMap fun op => f op.requiredAuthorities).foldl
    (fun names name => if names.contains name then names else names ++ [name]) []

/-- The order in which the required accounts are visited. -/
def sortNames (names : List AccountName) : List AccountName :=
  names.insertionSort fun a b => a.packed ≤ b.packed

/-- The checks of `verify_authority` for posting authorities. -/
def verifyPosting (required : List AccountName) : StateT State (Except Exc) Unit :=
  forEach (fun id => do
    let approved ← anyOf
      [checkAccount getPosting [] wlsMaxSigCheckDepth id,
        checkAuthorityOf getPosting [] wlsMaxSigCheckDepth (getActive id),
        checkAuthorityOf getPosting [] wlsMaxSigCheckDepth (getOwner id)]
    lift (wlsAssert approved .txMissingPostingAuth "Missing Posting Authority ${id}")) required

/-- The checks of `verify_authority` for other, active and owner authorities. -/
def verifyActive (other : List Authority) (active owner : List AccountName) :
    StateT State (Except Exc) Unit := do
  forEach (fun auth => do
    let approved ← checkAuthorityOf getActive [] wlsMaxSigCheckDepth (.ok auth)
    lift (wlsAssert approved .txMissingOtherAuth "Missing Authority")) other
  forEach (fun id => do
    let approved ← anyOf
      [checkAccount getActive [] wlsMaxSigCheckDepth id,
        checkAuthorityOf getActive [] wlsMaxSigCheckDepth (getOwner id)]
    lift (wlsAssert approved .txMissingActiveAuth "Missing Active Authority ${id}")) active
  forEach (fun id => do
    let approved ← checkAuthorityOf getActive [] wlsMaxSigCheckDepth (getOwner id)
    lift (wlsAssert approved .txMissingOwnerAuth "Missing Owner Authority ${id}")) owner

/-- `verify_authority`, with no approvals besides the signatures. -/
def verifyAuthority (ops : List Operation) (sigs : List PublicKey) : Except Exc Unit := do
  let active := sortNames (requiredOf (·.active) ops)
  let owner := sortNames (requiredOf (·.owner) ops)
  let posting := sortNames (requiredOf (·.posting) ops)
  let other := ops.flatMap fun op => op.requiredAuthorities.other
  if posting ≠ [] then
    fcAssert (active = []) "required_active.size() == 0"
    fcAssert (owner = []) "required_owner.size() == 0"
    fcAssert (other = []) "other.size() == 0"
    let (_, s) ← verifyPosting getActive getOwner getPosting posting (.init sigs)
    wlsAssert (!s.hasUnusedSignatures) .txIrrelevantSig "Unnecessary signature(s) detected"
  else
    let (_, s) ← verifyActive getActive getOwner other active owner (.init sigs)
    wlsAssert (!s.hasUnusedSignatures) .txIrrelevantSig "Unnecessary signature(s) detected"

variable (env : Env)

/-- `get_signature_keys` -/
def getSignatureKeys (trx : SignedTransaction) :
    List PublicKey → List Signature → Except Exc (List PublicKey)
  | keys, [] => .ok keys
  | keys, sig :: rest =>
    match env.recoverKey trx sig with
    | none => .error (failed "unable to reconstruct public key from signature")
    | some key => do
      wlsAssert (!keys.contains key) .txDuplicateSig "Duplicate Signature detected"
      getSignatureKeys trx (keys ++ [key]) rest

/-- `signed_transaction::verify_authority` -/
def verifyTransactionAuthority (trx : SignedTransaction) : Except Exc Unit := do
  let sigs ← getSignatureKeys env trx [] trx.signatures
  verifyAuthority getActive getOwner getPosting trx.operations sigs

end VerifyAuthority

end Whaleshares.SignState
