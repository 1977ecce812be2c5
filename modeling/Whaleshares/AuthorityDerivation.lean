import Whaleshares.SignState

/-!
# What an approval means

An account approves when it is `temp`, or when its authority is met by keys that signed and
by accounts that approve in turn. `Derives` and `Approves` say this without the order of the
search, its cache of approved accounts and its marks on signatures; the index is the depth
to which the authorities of other accounts are looked up. The search of `sign_state` finds
nothing that cannot be derived, and everything that can be derived within its depth.
-/

namespace Whaleshares.AuthorityDerivation

open Config Fc Protocol Program SignState

section Derivations

/-- The sum of the weights of entries. -/
def weight {α : Type} (entries : List (α × ℕ)) : ℕ := (entries.map Prod.snd).sum

/-- No entries have no weight. -/
@[simp] theorem weight_nil {α : Type} : weight ([] : List (α × ℕ)) = 0 := rfl

/-- The weight of an entry is added. -/
@[simp] theorem weight_cons {α : Type} (entry : α × ℕ) (entries : List (α × ℕ)) :
    weight (entry :: entries) = entry.2 + weight entries := rfl

/-- Fewer entries weigh less. -/
theorem weight_le_of_sublist {α : Type} {short long : List (α × ℕ)} (h : short.Sublist long) :
    weight short ≤ weight long := by
  induction h with
  | slnil => exact Nat.le_refl _
  | cons entry _ ih =>
    rw [weight_cons]
    omega
  | cons_cons entry _ ih =>
    rw [weight_cons, weight_cons]
    omega

/-- The weights of an authority fit into 32 bits. -/
def Bounded (auth : Authority) : Prop := weight auth.keyAuths + weight auth.accountAuths < 2 ^ 32

mutual

/-- The authority is met by some of the keys and by accounts that approve. -/
inductive Derives (getter : AuthorityGetter) (keys : List PublicKey) : ℕ → Authority → Prop
  | enough {depth : ℕ} {auth : Authority} (signed : List (PublicKey × ℕ))
      (accounts : List (AccountName × ℕ)) (hsigned : signed.Sublist auth.keyAuths)
      (hkeys : ∀ entry ∈ signed, entry.1 ∈ keys) (haccounts : accounts.Sublist auth.accountAuths)
      (happroves : ∀ entry ∈ accounts, Approves getter keys depth entry.1)
      (hweight : auth.weightThreshold ≤ weight signed + weight accounts) :
      Derives getter keys depth auth

/-- The account approves: it is `temp`, or its authority is met. -/
inductive Approves (getter : AuthorityGetter) (keys : List PublicKey) : ℕ → AccountName → Prop
  | temp (depth : ℕ) : Approves getter keys depth tempName
  | nested {depth : ℕ} {account : AccountName} {auth : Authority} (hauth : getter account = .ok auth)
      (hmet : Derives getter keys depth auth) : Approves getter keys (depth + 1) account

end

variable {getter : AuthorityGetter} {keys : List PublicKey} {depth depth' : ℕ} {auth : Authority}
  {account : AccountName}

/-- The authority is met at some depth. -/
def Derivable (getter : AuthorityGetter) (keys : List PublicKey) (auth : Authority) : Prop :=
  ∃ depth, Derives getter keys depth auth

/-- The account approves at some depth. -/
def Approvable (getter : AuthorityGetter) (keys : List PublicKey) (account : AccountName) : Prop :=
  ∃ depth, Approves getter keys depth account

/-- A derivation stays one when more depth is allowed. -/
theorem Derives.succ (h : Derives getter keys depth auth) :
    Derives getter keys (depth + 1) auth := by
  induction depth generalizing auth with
  | zero =>
    obtain ⟨signed, accounts, hsigned, hkeys, haccounts, happroves, hweight⟩ := h
    refine .enough signed accounts hsigned hkeys haccounts (fun entry hentry => ?_) hweight
    have happrove := happroves entry hentry
    generalize entry.1 = name at happrove ⊢
    cases happrove with
    | temp => exact .temp _
  | succ depth ih =>
    obtain ⟨signed, accounts, hsigned, hkeys, haccounts, happroves, hweight⟩ := h
    refine .enough signed accounts hsigned hkeys haccounts (fun entry hentry => ?_) hweight
    have happrove := happroves entry hentry
    generalize entry.1 = name at happrove ⊢
    cases happrove with
    | temp => exact .temp _
    | nested hauth hmet => exact .nested hauth (ih hmet)

/-- A derivation within a depth is one within a greater one. -/
theorem Derives.mono (h : Derives getter keys depth auth) (hle : depth ≤ depth') :
    Derives getter keys depth' auth := by
  induction hle with
  | refl => exact h
  | step _ ih => exact ih.succ

/-- An approval within a depth is one within a greater one. -/
theorem Approves.mono (h : Approves getter keys depth account) (hle : depth ≤ depth') :
    Approves getter keys depth' account := by
  cases h with
  | temp => exact .temp _
  | nested hauth hmet =>
    obtain ⟨more, rfl⟩ : ∃ more, depth' = more + 1 := ⟨depth' - 1, by omega⟩
    exact .nested hauth (hmet.mono (by omega))

/-- Finitely many approvals have a common depth. -/
theorem common_depth {accounts : List (AccountName × ℕ)}
    (h : ∀ entry ∈ accounts, Approvable getter keys entry.1) :
    ∃ depth, ∀ entry ∈ accounts, Approves getter keys depth entry.1 := by
  induction accounts with
  | nil => exact ⟨0, by simp⟩
  | cons entry rest ih =>
    obtain ⟨depth, hdepth⟩ := ih fun e he => h e (List.mem_cons_of_mem _ he)
    obtain ⟨depth', hdepth'⟩ := h entry List.mem_cons_self
    refine ⟨max depth depth', fun e he => ?_⟩
    rcases List.mem_cons.mp he with he | he
    · rw [he]
      exact hdepth'.mono (Nat.le_max_right _ _)
    · exact (hdepth e he).mono (Nat.le_max_left _ _)

/-- Keys and approved accounts of enough weight derive an authority. -/
theorem Derivable.of_approvable {signed : List (PublicKey × ℕ)}
    {accounts : List (AccountName × ℕ)} (hsigned : signed.Sublist auth.keyAuths)
    (hkeys : ∀ entry ∈ signed, entry.1 ∈ keys) (haccounts : accounts.Sublist auth.accountAuths)
    (happroves : ∀ entry ∈ accounts, Approvable getter keys entry.1)
    (hweight : auth.weightThreshold ≤ weight signed + weight accounts) :
    Derivable getter keys auth := by
  obtain ⟨depth, hdepth⟩ := common_depth happroves
  exact ⟨depth, .enough signed accounts hsigned hkeys haccounts hdepth hweight⟩

end Derivations

section Keys

variable {availableKeys : List PublicKey} {s t : State} {k : PublicKey}

/-- The key signed, or is available to sign. -/
def CanSign (availableKeys : List PublicKey) (s : State) (k : PublicKey) : Prop :=
  (∃ sig ∈ s.providedSignatures, sig.1 = k) ∨ k ∈ availableKeys

/-- Marks on signatures and new approvals do not change which keys can sign. -/
theorem signedBy_spec (availableKeys : List PublicKey) (k : PublicKey) (s : State) :
    ((signedBy availableKeys k s).1 = true ↔ CanSign availableKeys s k) ∧
      (signedBy availableKeys k s).2.approvedBy = s.approvedBy ∧
      ∀ k', CanSign availableKeys (signedBy availableKeys k s).2 k' ↔ CanSign availableKeys s k' := by
  unfold signedBy
  split
  next hprovided =>
    have hsigned : CanSign availableKeys s k := by
      left
      simpa using hprovided
    refine ⟨⟨fun _ => hsigned, fun _ => rfl⟩, rfl, fun k' => or_congr_left ?_⟩
    constructor
    · intro h
      obtain ⟨sig, hsig, hk'⟩ := h
      obtain ⟨old, hold, hsig⟩ := List.mem_map.mp hsig
      refine ⟨old, hold, ?_⟩
      rw [← hk', ← hsig]
      split
      · assumption
      · rfl
    · intro h
      obtain ⟨sig, hsig, hk'⟩ := h
      refine ⟨_, List.mem_map_of_mem hsig, ?_⟩
      split
      next hk => rw [← hk', hk]
      next => exact hk'
  next hprovided =>
    split
    next havailable =>
      have hmem : k ∈ availableKeys := by simpa using havailable
      refine ⟨⟨fun _ => .inr hmem, fun _ => rfl⟩, rfl, fun k' => ?_⟩
      constructor
      · rintro (⟨sig, hsig, hk'⟩ | h)
        · rcases List.mem_append.mp hsig with hsig | hsig
          · exact .inl ⟨sig, hsig, hk'⟩
          · rw [List.mem_singleton.mp hsig] at hk'
            rw [← hk']
            exact .inr hmem
        · exact .inr h
      · rintro (⟨sig, hsig, hk'⟩ | h)
        · exact .inl ⟨sig, List.mem_append_left _ hsig, hk'⟩
        · exact .inr h
    next havailable =>
      refine ⟨⟨fun h => absurd h (by simp), fun h => ?_⟩, rfl, fun _ => Iff.rfl⟩
      rcases h with ⟨sig, hsig, hk⟩ | h
      · exact absurd (List.any_eq_true.mpr ⟨sig, hsig, by simpa using hk⟩) hprovided
      · exact absurd (by simpa using h) havailable

/-- What the loop over the keys reaches: the weight of keys that can sign, all of them
unless the threshold stops it. -/
structure KeyWeight (availableKeys : List PublicKey) (threshold total : ℕ)
    (entries : List (PublicKey × ℕ)) (s : State) (result : (ℕ × Bool) × State) : Prop where
  approvedBy : result.2.approvedBy = s.approvedBy
  canSign : ∀ k, CanSign availableKeys result.2 k ↔ CanSign availableKeys s k
  reached : ∃ signed : List (PublicKey × ℕ), signed.Sublist entries ∧
    (∀ entry ∈ signed, CanSign availableKeys s entry.1) ∧ result.1.1 = total + weight signed
  met : result.1.2 = true → threshold ≤ result.1.1
  all : result.1.2 = false → ∀ signed : List (PublicKey × ℕ), signed.Sublist entries →
    (∀ entry ∈ signed, CanSign availableKeys s entry.1) → total + weight signed ≤ result.1.1

/-- The scan of the keys finds their weight. -/
theorem checkKeys_weight (availableKeys : List PublicKey) (threshold total : ℕ)
    (entries : List (PublicKey × ℕ)) (s : State) (hbound : total + weight entries < 2 ^ 32) :
    KeyWeight availableKeys threshold total entries s
      (checkKeys availableKeys threshold total entries s) := by
  induction entries generalizing total s with
  | nil =>
    refine ⟨rfl, fun _ => Iff.rfl, ⟨[], .slnil, by simp, rfl⟩, fun h => absurd h (by simp [checkKeys]),
      fun _ signed hsigned _ => ?_⟩
    rw [List.eq_nil_of_sublist_nil hsigned]
    exact Nat.le_refl _
  | cons entry rest ih =>
    obtain ⟨key, w⟩ := entry
    rw [weight_cons] at hbound
    obtain ⟨hsigns, happroved, hcan⟩ := signedBy_spec availableKeys key s
    unfold checkKeys
    cases hsigned : signedBy availableKeys key s with
    | mk signs s' =>
      rw [hsigned] at hsigns happroved hcan
      cases signs with
      | true =>
        have hkey : CanSign availableKeys s key := hsigns.mp rfl
        have hmod : (total + w) % 2 ^ 32 = total + w := Nat.mod_eq_of_lt (by simp only at hbound; omega)
        simp only [hmod]
        split
        next hmet =>
          refine ⟨happroved, hcan, ⟨[(key, w)], ?_, ?_, ?_⟩, fun _ => hmet,
            fun h => absurd h (by simp)⟩
          · exact List.Sublist.cons_cons _ (List.nil_sublist rest)
          · intro e he
            rw [List.mem_singleton.mp he]
            exact hkey
          · simp
        next hmet =>
          have hrest := ih (total + w) s' (by simp only at hbound; omega)
          obtain ⟨signed, hsub, hall, hreached⟩ := hrest.reached
          refine ⟨hrest.approvedBy.trans happroved, fun k => (hrest.canSign k).trans (hcan k),
            ⟨(key, w) :: signed, hsub.cons_cons _, ?_, ?_⟩, hrest.met, ?_⟩
          · intro e he
            rcases List.mem_cons.mp he with he | he
            · rw [he]
              exact hkey
            · exact (hcan e.1).mp (hall e he)
          · rw [hreached, weight_cons]
            omega
          · intro hfalse more hmore hmoreAll
            cases hmore with
            | cons _ hmore =>
              have := hrest.all hfalse more hmore fun e he => (hcan e.1).mpr (hmoreAll e he)
              omega
            | cons_cons _ hmore =>
              rename_i tail
              have := hrest.all hfalse tail hmore fun e he =>
                (hcan e.1).mpr (hmoreAll e (List.mem_cons_of_mem _ he))
              rw [weight_cons]
              simp only
              omega
      | false =>
        have hkey : ¬ CanSign availableKeys s key := fun h => absurd (hsigns.mpr h) (by simp)
        have hrest := ih total s' (by omega)
        obtain ⟨signed, hsub, hall, hreached⟩ := hrest.reached
        refine ⟨hrest.approvedBy.trans happroved, fun k => (hrest.canSign k).trans (hcan k),
          ⟨signed, hsub.cons _, fun e he => (hcan e.1).mp (hall e he), hreached⟩, hrest.met, ?_⟩
        intro hfalse more hmore hmoreAll
        cases hmore with
        | cons _ hmore => exact hrest.all hfalse more hmore fun e he => (hcan e.1).mpr (hmoreAll e he)
        | cons_cons _ hmore => exact absurd (hmoreAll _ List.mem_cons_self) hkey

end Keys

end Whaleshares.AuthorityDerivation
