import Whaleshares.ApplyBlock
import Whaleshares.Simulation

/-!
# What operations do not see

No operation looks at the witness of the current block, at the versions and votes for a
hardfork that witnesses report in the headers of their blocks, or at the records of
transactions. On states that differ in these alone an operation does the same.
-/

namespace Whaleshares.Unseen

open Config Fc Assets Protocol Objects Program Database WitnessVotes Vesting Rewards
  WitnessSchedule Evaluators CommentEvaluators ApplyBlock

section Relation

/-- What a witness reports in the headers of its blocks. -/
structure Report where
  runningVersion : Version
  hardforkVersionVote : Version
  hardforkTimeVote : TimePointSec

/-- The report of a witness. -/
def report (w : WitnessObject) : Report :=
  ⟨w.runningVersion, w.hardforkVersionVote, w.hardforkTimeVote⟩

/-- The witness with another report. -/
def reporting (r : Report) (w : WitnessObject) : WitnessObject :=
  { w with
    runningVersion := r.runningVersion
    hardforkVersionVote := r.hardforkVersionVote
    hardforkTimeVote := r.hardforkTimeVote }

/-- The witnesses differ at most in their reports, which `V` relates. -/
structure SameWitness (V : Report → Report → Prop) (w w' : WitnessObject) : Prop where
  rest : w' = reporting (report w') w
  reports : V (report w) (report w')

/-- The components of a state in which what operations do not see is kept. -/
structure Hidden where
  currentWitness : AccountName
  witnesses : Table WitnessObject
  transactions : Table TransactionObject

/-- These components of a state. -/
def hiddenPart (s : ChainState) : Hidden := ⟨s.dgp.currentWitness, s.witnesses, s.transactions⟩

/-- The state with other such components. -/
def masked (h : Hidden) (s : ChainState) : ChainState :=
  { s with
    dgp := { s.dgp with currentWitness := h.currentWitness }
    witnesses := h.witnesses
    transactions := h.transactions }

/-- The states differ at most in their current witness, the reports of their witnesses and
their records of transactions, which `C`, `V` and `T` relate. -/
structure Alike (C : AccountName → AccountName → Prop) (V : Report → Report → Prop)
    (T : Table TransactionObject → Table TransactionObject → Prop) (s s' : ChainState) : Prop where
  rest : s' = masked (hiddenPart s') s
  currentWitness : C s.dgp.currentWitness s'.dgp.currentWitness
  witnesses : s.witnesses.Related (SameWitness V) s'.witnesses
  records : T s.transactions s'.transactions

end Relation

variable {C : AccountName → AccountName → Prop} {V : Report → Report → Prop}
  {T : Table TransactionObject → Table TransactionObject → Prop}

section Rules

variable {α β : Type}

/-- A look at what the relation does not hide. -/
theorem reads {f : ChainState → α} (hf : ∀ h s, f (masked h s) = f s) :
    Blind (Alike C V T) (gets f : Chain α) := by
  refine .gets fun s s' h => ?_
  rw [h.rest]
  exact hf _ s

/-- A look after which nothing hidden matters. -/
theorem reads_bind {f : ChainState → α} {k : α → Chain β}
    (hf : ∀ h s, k (f (masked h s)) = k (f s)) (hk : ∀ a, Blind (Alike C V T) (k a)) :
    Blind (Alike C V T) (gets f >>= k) := by
  refine .gets_bind (fun s s' h => ?_) hk
  rw [h.rest]
  exact hf _ s

/-- A change beside the hidden parts keeps states alike. -/
theorem Alike.put {s s' : ChainState} (h : Alike C V T s s') (put : ChainState → ChainState)
    (hput : ∀ h s, put (masked h s) = masked h (put s))
    (hkeep : ∀ s, hiddenPart (put s) = hiddenPart s) : Alike C V T (put s) (put s') := by
  have hrest : put s' = masked (hiddenPart s') (put s) := (congrArg put h.rest).trans (hput _ s)
  have hsame := hkeep s
  obtain ⟨hcurrent, hwitnesses, hrecords⟩ := Hidden.mk.inj hsame
  rw [hrest]
  refine ⟨rfl, ?_, ?_, ?_⟩
  · rw [hcurrent]
    exact h.currentWitness
  · rw [hwitnesses]
    exact h.witnesses
  · rw [hrecords]
    exact h.records

/-- A change of a component that the relation does not hide. -/
theorem replaces {γ : Type} {get : ChainState → Except Exc γ} {put : ChainState → γ → ChainState}
    (hget : ∀ h s, get (masked h s) = get s)
    (hput : ∀ x h s, put (masked h s) x = masked h (put s x))
    (hkeep : ∀ x s, hiddenPart (put s x) = hiddenPart s) :
    Blind (Alike C V T) (update fun s => (get s).map (put s)) := by
  refine .replace (fun s s' h => ?_) fun s s' x h => ?_
  · rw [h.rest]
    exact hget _ s
  · exact h.put (fun s => put s x) (hput x) (hkeep x)

/-- A change beside the hidden parts does the same on states that are alike. -/
theorem sets {put : ChainState → ChainState} (hput : ∀ h s, put (masked h s) = masked h (put s))
    (hkeep : ∀ s, hiddenPart (put s) = hiddenPart s) :
    Blind (Alike C V T) (update fun s => .ok (put s) : Chain Unit) := by
  refine .update fun s s' t h ht => ⟨put s', rfl, ?_⟩
  rw [← Except.ok.inj ht]
  exact h.put put hput hkeep

end Rules

section Witnesses

/-- Mapping the result of a bind maps that of its second part. -/
theorem map_bind {α β γ : Type} {g : β → γ} (m : Except Exc α) (k : α → Except Exc β) :
    (m >>= k).map g = m >>= fun a => (k a).map g := by
  cases m <;> rfl

/-- A witness is the same as itself. -/
theorem SameWitness.refl (hV : ∀ r, V r r) (w : WitnessObject) : SameWitness V w w :=
  ⟨rfl, hV _⟩

/-- A condition on witnesses that does not depend on their reports. -/
def Unreported (p : WitnessObject → Bool) : Prop := ∀ r w, p (reporting r w) = p w

/-- A condition that reads no report holds of both witnesses or of none. -/
theorem SameWitness.condition {p : WitnessObject → Bool} (hp : Unreported p) {w w' : WitnessObject}
    (h : SameWitness V w w') : p w' = p w := by
  rw [h.rest]
  exact hp _ w

/-- A change of a witness that neither looks at its report nor changes it. -/
def KeepsReport (f : WitnessObject → Except Exc WitnessObject) : Prop :=
  ∀ r w, f (reporting r w) = (f w).map (reporting r)

/-- A change that reads no report does the same to both witnesses. -/
theorem SameWitness.change {f : WitnessObject → Except Exc WitnessObject} (hf : KeepsReport f)
    {w w' x : WitnessObject} (h : SameWitness V w w') (hx : f w = .ok x) :
    ∃ x', f w' = .ok x' ∧ SameWitness V x x' := by
  have hkept : report x = report w := by
    have hown : f w = (f w).map (reporting (report w)) := hf (report w) w
    rw [hx] at hown
    rw [Except.ok.inj hown]
    rfl
  refine ⟨reporting (report w') x, ?_, rfl, ?_⟩
  · rw [h.rest, hf, hx]
    rfl
  · rw [hkept]
    exact h.reports

/-- A change of a witness that keeps its report does not see reports. -/
theorem modifyWitness_blind {p : WitnessObject → Bool}
    {f : WitnessObject → Except Exc WitnessObject} (hp : Unreported p) (hf : KeepsReport f) :
    Blind (Alike C V T) (modifyWitness p f) := by
  refine .update fun s s' t h ht => ?_
  obtain ⟨table, htable, rfl⟩ := map_eq_ok ht
  obtain ⟨table', htable', hrelated⟩ := h.witnesses.modify (fun _ _ hw => hw.condition hp)
    (fun _ _ _ hw hx => hw.change hf hx) htable
  refine ⟨{ s' with witnesses := table' }, ?_, ?_, h.currentWitness, hrelated, h.records⟩
  · rw [htable']
    rfl
  · exact congrArg (fun u : ChainState => { u with witnesses := table' }) h.rest

/-- A new witness is the same on states that are alike. -/
theorem createWitness_blind (hV : ∀ r, V r r) (f : ℕ → Except Exc WitnessObject) :
    Blind (Alike C V T) (createWitness f) := by
  refine .update fun s s' t h ht => ?_
  obtain ⟨table, htable, rfl⟩ := map_eq_ok ht
  have hclashes : ∀ row a b : WitnessObject, SameWitness V a b →
      decide (row.owner = b.owner) = decide (row.owner = a.owner) :=
    fun row a b hab => hab.condition (p := fun w => decide (row.owner = w.owner)) fun _ _ => rfl
  obtain ⟨table', htable', hrelated⟩ := h.witnesses.create hclashes (SameWitness.refl hV) htable
  refine ⟨{ s' with witnesses := table' }, ?_, ?_, h.currentWitness, hrelated, h.records⟩
  · rw [htable']
    rfl
  · exact congrArg (fun u : ChainState => { u with witnesses := table' }) h.rest

/-- What follows the search for a witness need not depend on its report. -/
theorem getWitness_bind {α : Type} (name : AccountName) {k : WitnessObject → Chain α}
    (hw : ∀ r w, k (reporting r w) = k w) (hk : ∀ w, Blind (Alike C V T) (k w)) :
    Blind (Alike C V T) (getWitness name >>= k) := by
  constructor
  intro s s' a t h hrun
  obtain ⟨w, hfind, hrun⟩ := lookup_bind hrun
  obtain ⟨w', hfind', hsame⟩ := h.witnesses.find (fun _ _ hw => hw.condition fun _ _ => rfl) hfind
  obtain ⟨t', ht', hR⟩ := (hk w).sim s s' a t h hrun
  rw [← hw (report w') w, ← hsame.rest] at ht'
  have hlookup : Returns (getWitness name) s' w' s' := by
    refine Returns.intro_bind (a := s'.witnesses.find (ownedBy name)) rfl ?_
    rw [hfind']
    rfl
  exact ⟨t', hlookup.intro_bind ht', hR⟩

/-- A change of the global properties that neither looks at the current witness nor changes
it. -/
def KeepsCurrent (f : DynamicGlobalPropertyObject → Except Exc DynamicGlobalPropertyObject) :
    Prop :=
  ∀ n dgp, f { dgp with currentWitness := n } =
    (f dgp).map fun d => { d with currentWitness := n }

/-- A change of the properties that keeps the current witness does not see it. -/
theorem modifyDgp_blind {f : DynamicGlobalPropertyObject → Except Exc DynamicGlobalPropertyObject}
    (hf : KeepsCurrent f) : Blind (Alike C V T) (modifyDgp f) := by
  refine .update fun s s' t h ht => ?_
  obtain ⟨dgp, hdgp, rfl⟩ := map_eq_ok ht
  have hkept : dgp.currentWitness = s.dgp.currentWitness := by
    have hown : f s.dgp = (f s.dgp).map fun d =>
    { d with currentWitness := s.dgp.currentWitness } :=
      hf s.dgp.currentWitness s.dgp
    rw [hdgp] at hown
    have hsame : dgp = { dgp with currentWitness := s.dgp.currentWitness } := Except.ok.inj hown
    rw [hsame]
  have hdgp' : s'.dgp = { s.dgp with currentWitness := s'.dgp.currentWitness } :=
    congrArg ChainState.dgp h.rest
  refine ⟨{ s' with dgp := { dgp with currentWitness := s'.dgp.currentWitness } }, ?_, ?_, ?_,
    h.witnesses, h.records⟩
  · rw [hdgp', hf, hdgp]
    rfl
  · exact congrArg (fun u : ChainState =>
      { u with dgp := { dgp with currentWitness := s'.dgp.currentWitness } }) h.rest
  · rw [hkept]
    exact h.currentWitness

end Witnesses

section Database

/-- A lookup in a table that is not hidden finds the same. -/
theorem lookup_blind {α : Type} {table : ChainState → Table α} (p : α → Bool)
    (h : ∀ h s, table (masked h s) = table s) :
    Blind (Alike C V T) (lookup table p) :=
  .bind (reads fun m s => by rw [h]) fun _ => .lift _

/-- Changes of accounts do not see what is hidden. -/
theorem modifyAccount_blind (p : AccountObject → Bool)
    (f : AccountObject → Except Exc AccountObject) :
    Blind (Alike C V T) (modifyAccount p f) :=
  replaces (fun _ _ => rfl) (fun _ _ _ => rfl) fun _ _ => rfl

/-- Changes of authorities do not see what is hidden. -/
theorem modifyAccountAuthority_blind (account : AccountName)
    (f : AccountAuthorityObject → Except Exc AccountAuthorityObject) :
    Blind (Alike C V T) (modifyAccountAuthority account f) :=
  replaces (fun _ _ => rfl) (fun _ _ _ => rfl) fun _ _ => rfl

/-- Changes of comments do not see what is hidden. -/
theorem modifyComment_blind (id : ℕ) (f : CommentObject → Except Exc CommentObject) :
    Blind (Alike C V T) (modifyComment id f) :=
  replaces (fun _ _ => rfl) (fun _ _ _ => rfl) fun _ _ => rfl

/-- Changes of votes on comments do not see what is hidden. -/
theorem modifyCommentVote_blind (id : ℕ)
    (f : CommentVoteObject → Except Exc CommentVoteObject) :
    Blind (Alike C V T) (modifyCommentVote id f) :=
  replaces (fun _ _ => rfl) (fun _ _ _ => rfl) fun _ _ => rfl

/-- Changes of withdrawal routes do not see what is hidden. -/
theorem modifyRoute_blind (id : ℕ)
    (f : WithdrawVestingRouteObject → Except Exc WithdrawVestingRouteObject) :
    Blind (Alike C V T) (modifyRoute id f) :=
  replaces (fun _ _ => rfl) (fun _ _ _ => rfl) fun _ _ => rfl

/-- A new account does not see what is hidden. -/
theorem createAccount_blind (f : ℕ → Except Exc AccountObject) :
    Blind (Alike C V T) (createAccount f) :=
  replaces (fun _ _ => rfl) (fun _ _ _ => rfl) fun _ _ => rfl

/-- New authorities do not see what is hidden. -/
theorem createAccountAuthority_blind (f : ℕ → Except Exc AccountAuthorityObject) :
    Blind (Alike C V T) (createAccountAuthority f) :=
  replaces (fun _ _ => rfl) (fun _ _ _ => rfl) fun _ _ => rfl

/-- A new comment does not see what is hidden. -/
theorem createComment_blind (f : ℕ → Except Exc CommentObject) :
    Blind (Alike C V T) (createComment f) :=
  replaces (fun _ _ => rfl) (fun _ _ _ => rfl) fun _ _ => rfl

/-- A new vote on a comment does not see what is hidden. -/
theorem createCommentVote_blind (f : ℕ → Except Exc CommentVoteObject) :
    Blind (Alike C V T) (createCommentVote f) :=
  replaces (fun _ _ => rfl) (fun _ _ _ => rfl) fun _ _ => rfl

/-- A new witness vote does not see what is hidden. -/
theorem createWitnessVote_blind (f : ℕ → Except Exc WitnessVoteObject) :
    Blind (Alike C V T) (createWitnessVote f) :=
  replaces (fun _ _ => rfl) (fun _ _ _ => rfl) fun _ _ => rfl

/-- A new withdrawal route does not see what is hidden. -/
theorem createRoute_blind (f : ℕ → Except Exc WithdrawVestingRouteObject) :
    Blind (Alike C V T) (createRoute f) :=
  replaces (fun _ _ => rfl) (fun _ _ _ => rfl) fun _ _ => rfl

/-- The removal of a comment does not see what is hidden. -/
theorem removeComment_blind (id : ℕ) : Blind (Alike C V T) (removeComment id) :=
  sets (fun _ _ => rfl) fun _ => rfl

/-- The removal of votes on comments does not see what is hidden. -/
theorem removeCommentVotes_blind (p : CommentVoteObject → Bool) :
    Blind (Alike C V T) (removeCommentVotes p) :=
  sets (fun _ _ => rfl) fun _ => rfl

/-- The removal of witness votes does not see what is hidden. -/
theorem removeWitnessVotes_blind (p : WitnessVoteObject → Bool) :
    Blind (Alike C V T) (removeWitnessVotes p) :=
  sets (fun _ _ => rfl) fun _ => rfl

/-- The removal of a withdrawal route does not see what is hidden. -/
theorem removeRoute_blind (id : ℕ) : Blind (Alike C V T) (removeRoute id) :=
  sets (fun _ _ => rfl) fun _ => rfl

/-- A new proxy does not see what is hidden. -/
theorem setProxy_blind (o : AccountWitnessProxyOperation) :
    Blind (Alike C V T) (setProxy o) :=
  modifyAccount_blind _ _

/-- The number of the witnesses voted for is set without a look at what is hidden. -/
theorem setVotedFor_blind (name : AccountName) (f : ℕ → ℕ) :
    Blind (Alike C V T) (setVotedFor name f) :=
  modifyAccount_blind _ _

end Database

section WitnessVotes

variable (fc : FcLib)

/-- A change of the votes of a witness keeps its report. -/
theorem changeWitnessVote_keepsReport (time : ℕ) (shares delta : ℤ) :
    KeepsReport (changeWitnessVote fc time shares delta) := by
  intro r w
  unfold changeWitnessVote
  simp only [map_bind]
  rfl

/-- A change of the votes of one witness does not see reports. -/
theorem adjustWitnessVote_blind (witness : ℕ) (delta : ℤ) :
    Blind (Alike C V T) (adjustWitnessVote fc witness delta) :=
  .bind (reads fun _ _ => rfl) fun time => .bind (reads fun _ _ => rfl) fun shares =>
    modifyWitness_blind (fun _ _ => rfl) (changeWitnessVote_keepsReport fc time shares delta)

/-- A change of the votes of the witnesses of an account does not see reports. -/
theorem adjustWitnessVotes_blind (account : ℕ) (delta : ℤ) :
    Blind (Alike C V T) (adjustWitnessVotes fc account delta) := by
  refine .bind (m := witnessVotesOf account) (reads fun _ _ => rfl) fun votes => ?_
  refine .forEach (fun v => ?_) votes
  exact adjustWitnessVote_blind fc v.witness delta

/-- The way along the proxies does not see what is hidden. -/
theorem adjustProxiedLevels_blind (delta : ℤ) (levels : ℕ) (name : AccountName) :
    Blind (Alike C V T) (adjustProxiedLevels fc delta levels name) := by
  induction levels generalizing name with
  | zero => exact .bind (lookup_blind _ fun _ _ => rfl) fun a =>
    .whenever (adjustWitnessVotes_blind fc _ _)
  | succ levels ih =>
    refine .bind (lookup_blind _ fun _ _ => rfl) fun a =>
      .ite (adjustWitnessVotes_blind fc _ _) ?_
    exact .bind (modifyAccount_blind _ _) fun _ => ih a.proxy

/-- A change of proxied votes does not see what is hidden. -/
theorem adjustProxiedWitnessVotes_blind (name : AccountName) (delta : ℤ) :
    Blind (Alike C V T) (adjustProxiedWitnessVotes fc name delta) :=
  adjustProxiedLevels_blind fc delta _ name

/-- A change by the sum of the levels does not see what is hidden. -/
theorem adjustByTotal_blind (deltas : List ℤ) (levels account : ℕ) :
    Blind (Alike C V T) (adjustByTotal fc deltas levels account) :=
  .bind (.lift _) fun _ => adjustWitnessVotes_blind fc _ _

/-- The way along the proxies with a change for each level does not see what is hidden. -/
theorem adjustProxiedArrayLevels_blind (deltas : List ℤ) (levels : ℕ) (name : AccountName) :
    Blind (Alike C V T) (adjustProxiedArrayLevels fc deltas levels name) := by
  induction levels generalizing name with
  | zero => exact .bind (lookup_blind _ fun _ _ => rfl) fun a =>
    .whenever (adjustByTotal_blind fc _ _ _)
  | succ levels ih =>
    refine .bind (lookup_blind _ fun _ _ => rfl) fun a => .ite (adjustByTotal_blind fc _ _ _) ?_
    exact .bind (modifyAccount_blind _ _) fun _ => ih a.proxy

/-- Clearing the votes of an account does not see what is hidden. -/
theorem clearWitnessVotes_blind (name : AccountName) :
    Blind (Alike C V T) (clearWitnessVotes name) :=
  .bind (lookup_blind _ fun _ _ => rfl) fun _ => .bind (removeWitnessVotes_blind _) fun _ =>
    modifyAccount_blind _ _

end WitnessVotes

section Evaluators

/-- The check of the accounts of an authority does not see what is hidden. -/
theorem checkAccountAuths_blind (auth : Authority) :
    Blind (Alike C V T) (checkAccountAuths auth) := by
  refine .forEach (fun item => ?_) _
  exact .bind (lookup_blind _ fun _ _ => rfl) fun _ => .pure ()

/-- `witness_update` does not see what is hidden. -/
theorem applyWitnessUpdate_blind (hV : ∀ r, V r r) (ctx : Context) (o : WitnessUpdateOperation) :
    Blind (Alike C V T) (applyWitnessUpdate ctx o) := by
  refine .bind (lookup_blind _ fun _ _ => rfl) fun _ => .bind (.lift _) fun _ =>
    .bind (.lift _) fun _ => .bind (.lift _) fun _ => .gets_bind (fun s s' h => ?_) fun found =>
    .bind (reads fun _ _ => rfl) fun now => .ite ?_ ?_
  · rw [h.witnesses.find_isSome fun _ _ hw => hw.condition fun _ _ => rfl]
  · exact modifyWitness_blind (fun _ _ => rfl) fun _ _ => rfl
  · exact createWitness_blind hV _

/-- A change of the owner authority does not see what is hidden. -/
theorem changeOwner_blind (o : AccountUpdateOperation) (owner : Authority) :
    Blind (Alike C V T) (changeOwner o owner) := by
  refine .bind (lookup_blind _ fun _ _ => rfl) fun _ => .bind (reads fun _ _ => rfl) fun _ =>
    .bind (.lift _) fun _ => .bind (checkAccountAuths_blind _) fun _ => ?_
  exact .bind (reads fun _ _ => rfl) fun _ => modifyAccountAuthority_blind _ _

/-- `account_update` does not see what is hidden. -/
theorem applyAccountUpdate_blind (o : AccountUpdateOperation) :
    Blind (Alike C V T) (applyAccountUpdate o) := by
  refine .bind (.lift _) fun _ => .bind (.lift _) fun _ =>
    .bind (lookup_blind _ fun _ _ => rfl) fun _ => .bind (lookup_blind _ fun _ _ => rfl) fun _ =>
    .bind (.forEach (fun owner => ?_) _) fun _ => .bind (.forEach (fun auth => ?_) _) fun _ =>
    .bind (.forEach (fun auth => ?_) _) fun _ => .bind (reads fun _ _ => rfl) fun now =>
    .bind ?_ fun _ => .whenever ?_
  · exact changeOwner_blind o owner
  · exact checkAccountAuths_blind auth
  · exact checkAccountAuths_blind auth
  · exact modifyAccount_blind _ _
  · exact modifyAccountAuthority_blind _ _

/-- `withdraw_vesting` does not see what is hidden. -/
theorem applyWithdrawVesting_blind (fc : FcLib) (o : WithdrawVestingOperation) :
    Blind (Alike C V T) (applyWithdrawVesting fc o) := by
  refine .bind (lookup_blind _ fun _ _ => rfl) fun _ => reads_bind (fun _ _ => rfl) fun _ =>
    .bind (reads fun _ _ => rfl) fun _ => .bind (.lift _) fun _ => .ite (.bind (.lift _) fun _ =>
    ?_) ?_
  · exact modifyAccount_blind _ _
  · exact modifyAccount_blind _ _

/-- A change of a route does not see what is hidden. -/
theorem changeRoute_blind (o : SetWithdrawVestingRouteOperation)
    (source target : AccountObject) (found : Option WithdrawVestingRouteObject) :
    Blind (Alike C V T) (changeRoute o source target found) := by
  cases found with
  | none =>
    refine .bind (.lift _) fun _ => .bind (.lift _) fun _ =>
      .bind (createRoute_blind _) fun _ => ?_
    exact modifyAccount_blind _ _
  | some route =>
    refine .ite (.bind (removeRoute_blind _) fun _ => ?_) (modifyRoute_blind _ _)
    exact modifyAccount_blind _ _

/-- `set_withdraw_vesting_route` does not see what is hidden. -/
theorem applySetWithdrawVestingRoute_blind (o : SetWithdrawVestingRouteOperation) :
    Blind (Alike C V T) (applySetWithdrawVestingRoute o) := by
  refine .bind (lookup_blind _ fun _ _ => rfl) fun source =>
    .bind (lookup_blind _ fun _ _ => rfl) fun target => .bind (reads fun _ _ => rfl) fun found =>
    .bind (changeRoute_blind o source target found) fun _ => ?_
  exact .bind (reads fun _ _ => rfl) fun _ => .lift _

/-- The check for loops of proxies does not see what is hidden. -/
theorem checkProxyChain_blind (steps : ℕ) (proxyChain : List ℕ) (cprox : AccountObject) :
    Blind (Alike C V T) (checkProxyChain steps proxyChain cprox) := by
  induction steps generalizing proxyChain cprox with
  | zero => exact .lift _
  | succ steps ih =>
    refine .ite (.bind (lookup_blind _ fun _ _ => rfl) fun next => .bind (.lift _) fun _ =>
      .bind (.lift _) fun _ => ?_) (.pure ())
    exact ih _ _

/-- The change to a new proxy does not see what is hidden. -/
theorem setNewProxy_blind (fc : FcLib) (o : AccountWitnessProxyOperation)
    (account : AccountObject) (deltas : List ℤ) :
    Blind (Alike C V T) (setNewProxy fc o account deltas) := by
  refine .bind (lookup_blind _ fun _ _ => rfl) fun newProxy =>
    .bind (checkProxyChain_blind _ _ _) fun _ => .bind (clearWitnessVotes_blind _) fun _ =>
    .bind (setProxy_blind o) fun _ => .bind (.lift _) fun deltas => ?_
  exact adjustProxiedArrayLevels_blind fc deltas _ _

/-- `account_witness_proxy` does not see what is hidden. -/
theorem applyAccountWitnessProxy_blind (fc : FcLib) (o : AccountWitnessProxyOperation) :
    Blind (Alike C V T) (applyAccountWitnessProxy fc o) := by
  refine .bind (lookup_blind _ fun _ _ => rfl) fun account => .bind (.lift _) fun _ =>
    .bind (.lift _) fun deltas =>
    .bind (adjustProxiedArrayLevels_blind fc deltas _ _) fun _ => ?_
  exact .ite (setNewProxy_blind fc o account deltas) (setProxy_blind o)

/-- `account_witness_vote` does not see what is hidden. -/
theorem applyAccountWitnessVote_blind (fc : FcLib) (o : AccountWitnessVoteOperation) :
    Blind (Alike C V T) (applyAccountWitnessVote fc o) := by
  refine .bind (lookup_blind _ fun _ _ => rfl) fun voter => .bind (.lift _) fun _ =>
    getWitness_bind _ (fun _ _ => rfl) fun witness => .bind (reads fun _ _ => rfl) fun found => ?_
  cases found with
  | none =>
    exact .bind (.lift _) fun _ => .bind (.lift _) fun _ =>
      .bind (createWitnessVote_blind _) fun _ => .bind (.lift _) fun _ =>
      .bind (adjustWitnessVote_blind fc _ _) fun _ => setVotedFor_blind _ _
  | some vote =>
    exact .bind (.lift _) fun _ => .bind (.lift _) fun _ => .bind (.lift _) fun _ =>
      .bind (adjustWitnessVote_blind fc _ _) fun _ => .bind (setVotedFor_blind _ _) fun _ =>
      removeWitnessVotes_blind _

end Evaluators

section Comments

variable (fc : FcLib)

/-- Counting replies up the tree of comments does not see what is hidden. -/
theorem updateAncestors_blind (f : ℕ → ℕ) (now : TimePointSec) (steps : ℕ)
    (parent : CommentObject) :
    Blind (Alike C V T) (updateAncestors f now steps parent) := by
  induction steps generalizing parent with
  | zero => exact .lift _
  | succ steps ih =>
    refine .bind (modifyComment_blind _ _) fun _ =>
      .whenever (.bind (lookup_blind _ fun _ _ => rfl) fun next => ?_)
    exact ih next

/-- The lookup of the parent does not see what is hidden. -/
theorem findParent_blind (o : CommentOperation) :
    Blind (Alike C V T) (findParent o) :=
  .ite (.pure _) (.bind (lookup_blind _ fun _ _ => rfl) fun _ => .bind (.lift _) fun _ => .pure _)

/-- The checks of a new comment do not see what is hidden. -/
theorem checkNewComment_blind (o : CommentOperation) (parent : Option CommentObject)
    (auth : AccountObject) (now : TimePointSec) :
    Blind (Alike C V T) (checkNewComment o parent auth now) := by
  refine .bind (.forEach (fun parent => ?_) _) fun _ => .bind (reads fun _ _ => rfl) fun _ =>
    .whenever (.ite (.lift _) (.lift _))
  exact .bind (lookup_blind _ fun _ _ => rfl) fun _ => .lift _

/-- `comment` does not see what is hidden. -/
theorem applyComment_blind (env : Env) (o : CommentOperation) :
    Blind (Alike C V T) (applyComment env o) := by
  refine .bind (.lift _) fun _ => .bind (reads fun _ _ => rfl) fun found =>
    .bind (lookup_blind _ fun _ _ => rfl) fun auth => .bind (findParent_blind o) fun parent =>
    .bind (.lift _) fun _ => .bind (reads fun _ _ => rfl) fun now => ?_
  cases found with
  | some comment => exact modifyComment_blind _ _
  | none =>
    refine .bind (checkNewComment_blind o parent auth now) fun _ =>
      .bind (modifyAccount_blind _ _) fun _ => .bind (createComment_blind _) fun _ =>
      .bind (reads fun _ _ => rfl) fun comments => .forEach (fun parent => ?_) _
    exact updateAncestors_blind _ now comments parent

/-- `delete_comment` does not see what is hidden. -/
theorem applyDeleteComment_blind (o : DeleteCommentOperation) :
    Blind (Alike C V T) (applyDeleteComment o) := by
  refine .bind (lookup_blind _ fun _ _ => rfl) fun comment => .bind (.lift _) fun _ =>
    .bind (.lift _) fun _ => .bind (.lift _) fun _ => .bind (removeCommentVotes_blind _) fun _ =>
    .bind (.whenever ?_) fun _ => removeComment_blind _
  exact .bind (lookup_blind _ fun _ _ => rfl) fun parent => .bind (reads fun _ _ => rfl) fun now =>
    .bind (reads fun _ _ => rfl) fun comments =>
    updateAncestors_blind _ now comments parent

/-- Beneficiaries are set without a look at what is hidden. -/
theorem applyBeneficiaries_blind (id : ℕ) (cpb : CommentPayoutBeneficiaries) :
    Blind (Alike C V T) (applyBeneficiaries id cpb) :=
  .bind (lookup_blind _ fun _ _ => rfl) fun _ => .bind (.lift _) fun _ => .bind (.lift _) fun _ =>
    reads_bind (fun _ _ => rfl) fun _ => modifyComment_blind _ _

/-- `comment_options` does not see what is hidden. -/
theorem applyCommentOptions_blind (o : CommentOptionsOperation) :
    Blind (Alike C V T) (applyCommentOptions o) := by
  refine .bind (lookup_blind _ fun _ _ => rfl) fun comment => .bind (.lift _) fun _ =>
    .bind (.lift _) fun _ => .bind (.lift _) fun _ => .bind (.lift _) fun _ =>
    .bind (modifyComment_blind _ _) fun _ => .forEach (fun extension => ?_) _
  exact applyBeneficiaries_blind comment.id extension

/-- The weight of a vote does not depend on what is hidden. -/
theorem curationWeight_blind (comment : CommentObject) (oldVoteRshares rshares : ℤ)
    (now : TimePointSec) :
    Blind (Alike C V T) (curationWeight comment oldVoteRshares rshares now) :=
  .ite (.bind (lookup_blind _ fun _ _ => rfl) fun _ => .lift _) (.pure _)

/-- A new vote does not see what is hidden. -/
theorem castVote_blind (o : VoteOperation) (comment : CommentObject) (voter : AccountObject)
    (power : VotePower) :
    Blind (Alike C V T) (castVote fc o comment voter power) := by
  refine .bind (reads fun _ _ => rfl) fun now => .bind (.lift _) fun _ =>
    .bind (.whenever (.lift _)) fun _ => .bind (modifyAccount_blind _ _) fun _ =>
    .bind (lookup_blind _ fun _ _ => rfl) fun root => .bind (.lift _) fun _ =>
    .bind (modifyComment_blind _ _) fun _ => .bind (modifyComment_blind _ _) fun _ =>
    .bind (lookup_blind _ fun _ _ => rfl) fun counted =>
    .bind (curationWeight_blind _ _ _ _) fun weights =>
    .bind (createCommentVote_blind _) fun _ => .whenever ?_
  exact modifyComment_blind _ _

/-- A changed vote does not see what is hidden. -/
theorem changeVote_blind (o : VoteOperation) (comment : CommentObject)
    (vote : CommentVoteObject) (power : VotePower) :
    Blind (Alike C V T) (changeVote fc o comment vote power) := by
  refine .bind (reads fun _ _ => rfl) fun now => .bind (.lift _) fun _ => .bind (.lift _) fun _ =>
    .bind (.whenever (.lift _)) fun _ => .bind (modifyAccount_blind _ _) fun _ =>
    .bind (lookup_blind _ fun _ _ => rfl) fun root => .bind (modifyComment_blind _ _) fun _ =>
    .bind (modifyComment_blind _ _) fun _ => .bind (modifyComment_blind _ _) fun _ => ?_
  exact modifyCommentVote_blind _ _

/-- A vote without an effect on the rewards does not see what is hidden. -/
theorem recordVote_blind (o : VoteOperation) (comment : CommentObject) (voter : AccountObject)
    (found : Option CommentVoteObject) :
    Blind (Alike C V T) (recordVote o comment voter found) := by
  refine .bind (reads fun _ _ => rfl) fun now => ?_
  cases found with
  | none => exact createCommentVote_blind _
  | some vote => exact modifyCommentVote_blind _ _

/-- A vote that counts for the rewards does not see what is hidden. -/
theorem countVote_blind (o : VoteOperation) (comment : CommentObject) (voter : AccountObject)
    (found : Option CommentVoteObject) :
    Blind (Alike C V T) (countVote fc o comment voter found) := by
  refine reads_bind (fun _ _ => rfl) fun dgp => .bind (.lift _) fun power => ?_
  cases found with
  | none => exact castVote_blind fc o comment voter power
  | some vote => exact .bind (.lift _) fun _ => changeVote_blind fc o comment vote power

/-- `vote` does not see what is hidden. -/
theorem applyVote_blind (o : VoteOperation) :
    Blind (Alike C V T) (applyVote fc o) := by
  refine .bind (lookup_blind _ fun _ _ => rfl) fun comment =>
    .bind (lookup_blind _ fun _ _ => rfl) fun voter => .bind (.lift _) fun _ =>
    .bind (reads fun _ _ => rfl) fun found => ?_
  exact .ite (recordVote_blind o comment voter found)
    (countVote_blind fc o comment voter found)

end Comments

section Transactions

/-- Crediting shares to the totals keeps the current witness. -/
theorem creditVestingTotals_keepsCurrent (fc : FcLib) (toRewardBalance : Bool)
    (steem newVesting : Asset) :
    KeepsCurrent (creditVestingTotals fc toRewardBalance steem newVesting) := by
  intro n dgp
  unfold creditVestingTotals
  cases toRewardBalance with
  | true =>
    simp only [if_true, map_bind]
    rfl
  | false =>
    simp only [Bool.false_eq_true, if_false, map_bind]
    rfl

/-- A claim of rewards keeps the current witness. -/
theorem claimTotals_keepsCurrent (fc : FcLib) (rewardVests toMove : Asset) :
    KeepsCurrent (claimTotals fc rewardVests toMove) := by
  intro n gpo
  unfold claimTotals
  simp only [map_bind]
  rfl

/-- The creation of vesting shares does not see what is hidden. -/
theorem createVesting_blind (fc : FcLib) (toAccount : AccountName) (steem : Asset)
    (toRewardBalance : Bool) :
    Blind (Alike C V T) (createVesting fc toAccount steem toRewardBalance) := by
  refine reads_bind (fun _ _ => rfl) fun props => .bind (.lift _) fun price =>
    .bind (.lift _) fun newVesting => .bind (modifyAccount_blind _ _) fun _ => .bind ?_ fun _ =>
    .bind (.whenever (adjustProxiedWitnessVotes_blind fc _ _)) fun _ => .pure _
  exact modifyDgp_blind (creditVestingTotals_keepsCurrent fc _ _ _)

/-- `account_create` does not see what is hidden. -/
theorem applyAccountCreate_blind (ctx : Context) (o : AccountCreateOperation) :
    Blind (Alike C V T) (applyAccountCreate ctx o) :=
  .bind (.lift _) fun _ => .bind (lookup_blind _ fun _ _ => rfl) fun _ => .bind (.lift _) fun _ =>
    .bind (.lift _) fun _ => .bind (reads fun _ _ => rfl) fun _ => .bind (.lift _) fun _ =>
    .bind (.lift _) fun _ => .bind (checkAccountAuths_blind _) fun _ =>
    .bind (checkAccountAuths_blind _) fun _ => .bind (checkAccountAuths_blind _) fun _ =>
    .bind (modifyAccount_blind _ _) fun _ => .bind (reads fun _ _ => rfl) fun _ =>
    .bind (createAccount_blind _) fun _ => .bind (createAccountAuthority_blind _) fun _ =>
    .whenever (.bind (createVesting_blind _ _ _ _) fun _ => .pure _)

/-- `transfer` does not see what is hidden. -/
theorem applyTransfer_blind (fc : FcLib) (o : TransferOperation) :
    Blind (Alike C V T) (applyTransfer fc o) :=
  .bind (lookup_blind _ fun _ _ => rfl) fun _ => .bind (lookup_blind _ fun _ _ => rfl) fun _ =>
    .bind (.lift _) fun _ => .bind (.lift _) fun _ => .bind (.lift _) fun _ =>
    .bind (.lift _) fun _ => .bind (modifyAccount_blind _ _) fun _ => modifyAccount_blind _ _

/-- `transfer_to_vesting` does not see what is hidden. -/
theorem applyTransferToVesting_blind (fc : FcLib) (o : TransferToVestingOperation) :
    Blind (Alike C V T) (applyTransferToVesting fc o) :=
  .bind (lookup_blind _ fun _ _ => rfl) fun _ => .bind (lookup_blind _ fun _ _ => rfl) fun _ =>
    .bind (.lift _) fun _ => .bind (.lift _) fun _ => .bind (.lift _) fun _ =>
    .bind (.lift _) fun _ => .bind (modifyAccount_blind _ _) fun _ =>
    .bind (createVesting_blind fc _ _ _) fun _ => .pure _

/-- `claim_reward_balance` does not see what is hidden. -/
theorem applyClaimRewardBalance_blind (fc : FcLib) (op : ClaimRewardBalanceOperation) :
    Blind (Alike C V T) (applyClaimRewardBalance fc op) :=
  .bind (lookup_blind _ fun _ _ => rfl) fun _ => .bind (.lift _) fun _ => .bind (.lift _) fun _ =>
    .bind (.lift _) fun _ => .bind (.lift _) fun _ => .bind (.lift _) fun _ =>
    .bind (.lift _) fun _ => .bind (modifyAccount_blind _ _) fun _ =>
    .bind (modifyAccount_blind _ _) fun _ => .bind (modifyAccount_blind _ _) fun _ =>
    .bind (modifyDgp_blind (claimTotals_keepsCurrent fc _ _)) fun _ =>
    adjustProxiedWitnessVotes_blind fc _ _

/-- No operation sees what the relation hides. -/
theorem applyOperation_blind (hV : ∀ r, V r r) (ctx : Context) (op : Operation) :
    Blind (Alike C V T) (applyOperation ctx op) := by
  cases op with
  | vote o => exact applyVote_blind _ o
  | comment o => exact applyComment_blind _ o
  | transfer o => exact applyTransfer_blind _ o
  | transferToVesting o => exact applyTransferToVesting_blind _ o
  | withdrawVesting o => exact applyWithdrawVesting_blind _ o
  | accountCreate o => exact applyAccountCreate_blind ctx o
  | accountUpdate o => exact applyAccountUpdate_blind o
  | accountForsale o => exact .lift (.error (failed "Temporary disabled."))
  | accountBuying o => exact .lift (.error (failed "Temporary disabled."))
  | witnessUpdate o => exact applyWitnessUpdate_blind hV ctx o
  | accountWitnessVote o => exact applyAccountWitnessVote_blind _ o
  | accountWitnessProxy o => exact applyAccountWitnessProxy_blind _ o
  | custom o => exact .pure _
  | deleteComment o => exact applyDeleteComment_blind o
  | customJson o => exact .pure _
  | commentOptions o => exact applyCommentOptions_blind o
  | setWithdrawVestingRoute o => exact applySetWithdrawVestingRoute_blind o
  | customBinary o => exact .pure _
  | claimRewardBalance o => exact applyClaimRewardBalance_blind _ o

end Transactions

end Whaleshares.Unseen
