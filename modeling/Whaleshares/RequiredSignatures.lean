import Whaleshares.GreedyRemoval
import Whaleshares.SignState

/-!
# Signatures that a transaction requires

`get_required_signatures` and `minimize_required_signatures` of `protocol/transaction.cpp`: the
available keys that the walk over the authorities has used, and the removal of those that
`verify_authority` can do without.
-/

namespace Whaleshares.RequiredSignatures

open Config Fc Protocol Program SignState GreedyRemoval

variable (getActive getOwner getPosting : AuthorityGetter) (env : Env)

/-- `set<public_key_type>` of some keys. -/
def keySet (keys : List PublicKey) : List PublicKey :=
  keys.dedup.insertionSort fun a b => a.data ≤ b.data

/-- The available keys among the provided signatures, after `remove_unused_signatures`. -/
def usedKeys (availableKeys : List PublicKey) (s : State) : List PublicKey :=
  keySet (((s.providedSignatures.filter (·.2)).map (·.1)).filter availableKeys.contains)

/-- The checks of `get_required_signatures` for posting authorities, whose results are not used. -/
def visitPosting (availableKeys : List PublicKey) (posting : List AccountName) :
    StateT State (Except Exc) Unit :=
  forEach (fun id => do
    let _ ← checkAccount getPosting availableKeys wlsMaxSigCheckDepth id
    pure ()) posting

/-- The checks of `get_required_signatures` for other, owner and active authorities, whose results
are not used. -/
def visitActive (availableKeys : List PublicKey) (other : List Authority)
    (owner active : List AccountName) : StateT State (Except Exc) Unit := do
  forEach (fun auth => do
    let _ ← checkAuthorityOf getActive availableKeys wlsMaxSigCheckDepth (.ok auth)
    pure ()) other
  forEach (fun id => do
    let _ ← checkAuthorityOf getActive availableKeys wlsMaxSigCheckDepth (getOwner id)
    pure ()) owner
  forEach (fun id => do
    let _ ← checkAccount getActive availableKeys wlsMaxSigCheckDepth id
    pure ()) active

/-- `get_required_signatures` -/
def getRequiredSignatures (trx : SignedTransaction) (availableKeys : List PublicKey) :
    Except Exc (List PublicKey) := do
  let active := sortNames (requiredOf (·.active) trx.operations)
  let owner := sortNames (requiredOf (·.owner) trx.operations)
  let posting := sortNames (requiredOf (·.posting) trx.operations)
  let other := trx.operations.flatMap fun op => op.requiredAuthorities.other
  let sigs ← getSignatureKeys env trx [] trx.signatures
  if posting ≠ [] then
    fcAssert (owner = []) "!required_owner.size()"
    fcAssert (active = []) "!required_active.size()"
    let (_, s) ← visitPosting getPosting availableKeys posting (.init sigs)
    pure (usedKeys availableKeys s)
  else
    let (_, s) ← visitActive getActive getOwner availableKeys other owner active (.init sigs)
    pure (usedKeys availableKeys s)

/-- The exceptions after which `minimize_required_signatures` keeps a key. -/
def isMissingAuth (e : Exc) : Bool :=
  e.kind = .txMissingOwnerAuth || e.kind = .txMissingActiveAuth ||
    e.kind = .txMissingPostingAuth || e.kind = .txMissingOtherAuth

/-- `minimize_required_signatures` -/
def minimizeRequiredSignatures (trx : SignedTransaction) (availableKeys : List PublicKey) :
    Except Exc (List PublicKey) := do
  let keys ← getRequiredSignatures getActive getOwner getPosting env trx availableKeys
  removeEach (verifyAuthority getActive getOwner getPosting trx.operations) isMissingAuth keys keys

end Whaleshares.RequiredSignatures
