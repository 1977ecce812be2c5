import Mathlib
import Whaleshares.ChainRun
import Whaleshares.PairTree

/-!
# The merkle root of a block

`calculate_merkle_root` hashes the digests of the transactions in pairs and writes the results
to the front of the array that it reads from, until one is left. The result is the digest of
the tree in which each level hashes consecutive pairs and an odd last element goes up
unchanged. So blocks with the same root have the same transactions, as far as no hash collides.
-/

namespace Whaleshares.MerkleRoot

open Config Protocol Genesis PairTree ChainRun

section Loop

variable (env : Env)

/-- The loop over `i` that writes to `ids[k++]`, with the number of pairs that are left. -/
def hashPairs : ℕ → ℕ → ℕ → List ℕ → List ℕ × ℕ
  | 0, _, k, ids => (ids, k)
  | left + 1, i, k, ids =>
    hashPairs left (i + 2) (k + 1)
      (ids.set k (env.hashPair (ids.getD i 0) (ids.getD (i + 1) 0)))

/-- One round of the outer loop, with the current number of hashes. -/
def hashRound (ids : List ℕ) (current : ℕ) : List ℕ × ℕ :=
  let iMax := current - current % 2
  let hashed := hashPairs env (iMax / 2) 0 0 ids
  if current % 2 = 1 then
    (hashed.1.set hashed.2 (hashed.1.getD iMax 0), hashed.2 + 1)
  else hashed

/-- The outer loop, with a bound for its rounds. -/
def hashRounds : ℕ → List ℕ → ℕ → List ℕ × ℕ
  | 0, ids, current => (ids, current)
  | rounds + 1, ids, current =>
    if 1 < current then
      let hashed := hashRound env ids current
      hashRounds rounds hashed.1 hashed.2
    else (ids, current)

/-- `calculate_merkle_root` on the array of the digests. The indexes of the source have 32 bits,
enough for the transactions of a block. -/
def merkleRootInPlace (transactions : List SignedTransaction) : ℕ :=
  if transactions.length = 0 then 0
  else
    let ids := transactions.map env.merkleDigest
    env.checksum ((hashRounds env ids.length ids ids.length).1.getD 0 0)

end Loop

section Rounds

variable {env : Env} {ids : List ℕ}

/-- A step of the loop hashes the next pair in its place. -/
theorem hashPairs_succ (left i k : ℕ) (hi : i + 1 < ids.length) :
    hashPairs env (left + 1) i k ids = hashPairs env left (i + 2) (k + 1)
      (ids.set k (env.hashPair ids[i] ids[i + 1])) := by
  have hfirst : i < ids.length := by omega
  have hstep : hashPairs env (left + 1) i k ids = hashPairs env left (i + 2) (k + 1)
      (ids.set k (env.hashPair (ids.getD i 0) (ids.getD (i + 1) 0))) := rfl
  rw [hstep, List.getD_eq_getElem?_getD, List.getD_eq_getElem?_getD,
    List.getElem?_eq_getElem hfirst, List.getElem?_eq_getElem hi, Option.getD_some, Option.getD_some]

/-- The hashes of the pairs stand at the front, and what comes after the pairs is not changed. -/
theorem hashPairs_eq {left k : ℕ} (hroom : 2 * (k + left) ≤ ids.length) :
    (hashPairs env left (2 * k) k ids).2 = k + left ∧
      (hashPairs env left (2 * k) k ids).1.length = ids.length ∧
      (hashPairs env left (2 * k) k ids).1.take (k + left) =
        ids.take k ++ pairUp env.hashPair ((ids.drop (2 * k)).take (2 * left)) ∧
      (hashPairs env left (2 * k) k ids).1.drop (2 * (k + left)) = ids.drop (2 * (k + left)) := by
  induction left generalizing k ids with
  | zero =>
    unfold hashPairs
    simp [pairUp]
  | succ left ih =>
    have hfirst : 2 * k < ids.length := by omega
    have hsecond : 2 * k + 1 < ids.length := by omega
    obtain ⟨hash, hhash⟩ : ∃ hash, hash = env.hashPair ids[2 * k] ids[2 * k + 1] := ⟨_, rfl⟩
    have hlength : (ids.set k hash).length = ids.length := List.length_set
    have hleft : 2 * (k + 1 + left) ≤ (ids.set k hash).length := by omega
    obtain ⟨hcount, hlen, htake, hdrop⟩ := ih hleft
    have hplus : k + 1 + left = k + (left + 1) := by omega
    rw [hashPairs_succ left (2 * k) k hsecond, ← hhash]
    change (hashPairs env left (2 * (k + 1)) (k + 1) (ids.set k hash)).2 = _ ∧ _
    rw [hplus] at hcount htake hdrop
    refine ⟨hcount, hlen.trans hlength, ?_, ?_⟩
    · have hfront : (ids.set k hash).take (k + 1) = ids.take k ++ [hash] := by
        rw [List.take_add_one, List.getElem?_set_self (by omega), List.take_set_of_le (Nat.le_refl k)]
        rfl
      have hrest : (ids.set k hash).drop (2 * (k + 1)) = ids.drop (2 * (k + 1)) := by
        rw [List.drop_set_of_lt (by omega)]
      have hpairs : (ids.drop (2 * k)).take (2 * (left + 1)) =
          ids[2 * k] :: ids[2 * k + 1] :: (ids.drop (2 * (k + 1))).take (2 * left) := by
        rw [List.drop_eq_getElem_cons hfirst, List.drop_eq_getElem_cons hsecond]
        rfl
      refine htake.trans ?_
      rw [hfront, hrest, hpairs, pairUp_cons, ← hhash, List.append_assoc]
      rfl
    · refine hdrop.trans ?_
      rw [List.drop_set_of_lt (by omega)]

/-- One round leaves the next level at the front of the array. -/
theorem hashRound_eq {current : ℕ} (hroom : current ≤ ids.length) :
    (hashRound env ids current).1.length = ids.length ∧
      (hashRound env ids current).2 = (current + 1) / 2 ∧
      (hashRound env ids current).1.take ((current + 1) / 2) =
        pairUp env.hashPair (ids.take current) := by
  have hhalf : (current - current % 2) / 2 = current / 2 := by omega
  obtain ⟨hcount, hlength, htake, hdrop⟩ :=
    @hashPairs_eq env ids (current / 2) 0 (by omega)
  rw [Nat.mul_zero, Nat.zero_add] at *
  rw [List.take_zero, List.nil_append, List.drop_zero] at htake
  unfold hashRound
  simp only [hhalf]
  rcases Nat.mod_two_eq_zero_or_one current with heven | hodd
  · have hall : 2 * (current / 2) = current := by omega
    have hup : (current + 1) / 2 = current / 2 := by omega
    rw [if_neg (by omega), hup]
    rw [hall] at htake
    exact ⟨hlength, hcount, htake⟩
  · have hiMax : current - current % 2 = 2 * (current / 2) := by omega
    have hup : (current + 1) / 2 = current / 2 + 1 := by omega
    have hlast : 2 * (current / 2) < ids.length := by omega
    have hsplit : ids.take current = ids.take (2 * (current / 2)) ++ [ids[2 * (current / 2)]] := by
      have hcurrent : current = 2 * (current / 2) + 1 := by omega
      rw [List.take_append_getElem hlast, ← hcurrent]
    rw [if_pos hodd, hiMax, hcount, hup]
    refine ⟨?_, rfl, ?_⟩
    · rw [List.length_set, hlength]
    · have hsame : (hashPairs env (current / 2) 0 0 ids).1.getD (2 * (current / 2)) 0 =
          ids[2 * (current / 2)] := by
        have hhead := congrArg List.head? hdrop
        rw [List.head?_drop, List.head?_drop, List.getElem?_eq_getElem hlast] at hhead
        rw [List.getD_eq_getElem?_getD, hhead, Option.getD_some]
      have hlen : (ids.take (2 * (current / 2))).length = 2 * (current / 2) := by
        rw [List.length_take]
        omega
      rw [List.take_add_one, List.getElem?_set_self (by omega),
        List.take_set_of_le (Nat.le_refl _), htake, hsame, hsplit, pairUp_append _ hlen]
      rfl

/-- The rounds leave the last level at the front of the array. -/
theorem hashRounds_eq {rounds current : ℕ} (hroom : current ≤ ids.length) :
    (hashRounds env rounds ids current).1.take (hashRounds env rounds ids current).2 =
      gather env.hashPair rounds (ids.take current) := by
  induction rounds generalizing ids current with
  | zero => rfl
  | succ rounds ih =>
    have hlength : (ids.take current).length = current := by
      rw [List.length_take]
      omega
    unfold hashRounds gather
    rw [hlength]
    by_cases hmore : 1 < current
    · obtain ⟨hlen, hcount, htake⟩ := @hashRound_eq env ids current hroom
      rw [if_pos hmore, if_pos hmore, ← htake, ← hcount]
      exact ih (by omega)
    · rw [if_neg hmore, if_neg hmore]

end Rounds

section Roots

variable {env : Env} {transactions : List SignedTransaction}

/-- The loop computes the digest of the tree of the transactions. -/
theorem merkleRootInPlace_eq {t : PairTree.Tree ℕ}
    (h : treeOf (transactions.map env.merkleDigest) = some t) :
    merkleRootInPlace env transactions = env.checksum (t.digest env.hashPair) := by
  have hne : transactions.length ≠ 0 := by
    intro hzero
    rw [List.length_eq_zero_iff.mp hzero] at h
    cases h
  have hgather := gather_digest env.hashPair h
  have hrounds := @hashRounds_eq env (transactions.map env.merkleDigest)
    (transactions.map env.merkleDigest).length _ (Nat.le_refl _)
  rw [List.take_length, hgather] at hrounds
  have hhead := congrArg List.head? hrounds
  rw [List.head?_take] at hhead
  unfold merkleRootInPlace
  rw [if_neg hne]
  refine congrArg env.checksum ?_
  split at hhead
  · cases hhead
  · rw [List.getD_eq_getElem?_getD, ← List.head?_eq_getElem?, hhead]
    rfl

/-- A round of the loop pairs the list. -/
theorem merkleRound_eq (l : List ℕ) : merkleRound env l = pairUp env.hashPair l := by
  induction l using pairUp.induct with
  | case1 a b rest ih =>
    unfold merkleRound
    rw [ih, pairUp_cons]
  | case2 l h =>
    cases l with
    | nil => rfl
    | cons a tail =>
      cases tail with
      | nil => rfl
      | cons b rest => exact absurd rfl (h a b rest)

/-- The rounds of the loop gather the list. -/
theorem merkleRounds_eq (rounds : ℕ) (l : List ℕ) :
    merkleRounds env rounds l = (gather env.hashPair rounds l).headD 0 := by
  induction rounds generalizing l with
  | zero =>
    match l with
    | [] => rfl
    | [_] => rfl
    | a :: b :: rest => rfl
  | succ rounds ih =>
    match l with
    | [] => rfl
    | [_] => rfl
    | a :: b :: rest =>
      have hmore : 1 < (a :: b :: rest).length := by simp
      unfold gather
      rw [if_pos hmore, ← ih, ← merkleRound_eq]
      rfl

/-- The root of a block is the one that the loop computes. -/
theorem calculateMerkleRoot_eq (b : SignedBlock) :
    b.calculateMerkleRoot env = merkleRootInPlace env b.transactions := by
  obtain ⟨header, transactions⟩ := b
  cases transactions with
  | nil => rfl
  | cons trx rest =>
    obtain ⟨t, ht, -⟩ := treeOf_gather (l := (trx :: rest).map env.merkleDigest)
      (List.cons_ne_nil _ _)
    have hgather := gather_digest env.hashPair ht
    have hroot : SignedBlock.calculateMerkleRoot env ⟨header, trx :: rest⟩ = env.checksum
        (merkleRounds env (trx :: rest).length ((trx :: rest).map env.merkleDigest)) := rfl
    rw [List.length_map] at hgather
    rw [hroot, merkleRounds_eq, hgather, merkleRootInPlace_eq ht]
    rfl

/-- Lists with the same values of a function that is injective on their elements are the
same. -/
theorem eq_of_map_eq {α β : Type} {f : α → β} {l l' : List α}
    (hf : ∀ x ∈ l, ∀ y ∈ l', f x = f y → x = y) (h : l.map f = l'.map f) : l = l' := by
  induction l generalizing l' with
  | nil => exact (List.map_eq_nil_iff.mp h.symm).symm
  | cons x rest ih =>
    obtain ⟨y, rest', rfl, hy, hrest⟩ := List.map_eq_cons_iff.mp h.symm
    have hfirst := hf x List.mem_cons_self y List.mem_cons_self hy.symm
    have hlater := ih (fun x' hx' y' hy' =>
      hf x' (List.mem_cons_of_mem _ hx') y' (List.mem_cons_of_mem _ hy')) hrest.symm
    rw [hfirst, hlater]

/-- No hash collides: the pair hash, the digests of the transactions and the final hash are
injective, and no transaction has the hash of a pair. -/
structure CollisionFree (env : Env) (T : SignedTransaction → Prop) : Prop where
  pair : ∀ a b c d, env.hashPair a b = env.hashPair c d → a = c ∧ b = d
  leaf : ∀ trx trx', T trx → T trx' → env.merkleDigest trx = env.merkleDigest trx' → trx = trx'
  final : Function.Injective env.checksum
  apart : ∀ trx, T trx → ∀ a b, env.merkleDigest trx ≠ env.hashPair a b

/-- The loop computes the root that `applyBlock` checks, and it is the root of the tree of the
transactions; where no hash collides, blocks with transactions and the same root have the same
transactions. -/
theorem merkle_root_binding (env : Env) :
    (∀ b : SignedBlock, b.calculateMerkleRoot env = merkleRootInPlace env b.transactions) ∧
    (∀ b : SignedBlock, b.transactions ≠ [] → ∃ t,
      treeOf (b.transactions.map env.merkleDigest) = some t ∧
        merkleRootInPlace env b.transactions = env.checksum (t.digest env.hashPair)) ∧
    ∀ T, CollisionFree env T → ∀ b b' : SignedBlock, b.transactions ≠ [] → b'.transactions ≠ [] →
      (∀ trx ∈ b.transactions, T trx) → (∀ trx ∈ b'.transactions, T trx) →
      b.calculateMerkleRoot env = b'.calculateMerkleRoot env →
      b.transactions = b'.transactions := by
  have htree : ∀ b : SignedBlock, b.transactions ≠ [] → ∃ t,
      treeOf (b.transactions.map env.merkleDigest) = some t ∧
        merkleRootInPlace env b.transactions = env.checksum (t.digest env.hashPair) := by
    intro b hb
    obtain ⟨t, ht, -⟩ := treeOf_gather (l := b.transactions.map env.merkleDigest) (by simpa using hb)
    exact ⟨t, ht, merkleRootInPlace_eq ht⟩
  refine ⟨calculateMerkleRoot_eq, htree, fun T hfree b b' hb hb' hT hT' hroot => ?_⟩
  obtain ⟨t, ht, hdigest⟩ := htree b hb
  obtain ⟨t', ht', hdigest'⟩ := htree b' hb'
  rw [calculateMerkleRoot_eq, calculateMerkleRoot_eq, hdigest, hdigest'] at hroot
  have hleaves := leaves_treeOf ht
  have hleaves' := leaves_treeOf ht'
  have hsame : t = t' := by
    refine Tree.digest_inj (P := fun d => ∃ trx, T trx ∧ env.merkleDigest trx = d) hfree.pair ?_
      ?_ ?_ (hfree.final hroot)
    · rintro d ⟨trx, htrx, rfl⟩
      exact hfree.apart trx htrx
    · rw [hleaves]
      intro d hd
      obtain ⟨trx, htrx, rfl⟩ := List.mem_map.mp hd
      exact ⟨trx, hT trx htrx, rfl⟩
    · rw [hleaves']
      intro d hd
      obtain ⟨trx, htrx, rfl⟩ := List.mem_map.mp hd
      exact ⟨trx, hT' trx htrx, rfl⟩
  have hdigests : b.transactions.map env.merkleDigest = b'.transactions.map env.merkleDigest := by
    rw [← hleaves, ← hleaves', hsame]
  exact eq_of_map_eq (fun trx htrx trx' htrx' => hfree.leaf trx trx' (hT trx htrx) (hT' trx' htrx'))
    hdigests

/-- Hashes of numbers that do not collide on the transactions without operations. -/
def pairingEnv : Env := { sampleEnv with
  merkleDigest := fun trx => 2 * trx.refBlockPrefix
  hashPair := fun a b => 2 * Nat.pair a b + 1 }

/-- The small environment has no collisions. -/
theorem pairingEnv_collisionFree :
    CollisionFree pairingEnv fun trx => ∃ word, trx = referring 0 word [] where
  pair a b c d h := by
    have hpair : 2 * Nat.pair a b + 1 = 2 * Nat.pair c d + 1 := h
    exact Nat.pair_eq_pair.mp (by omega)
  leaf := by
    rintro _ _ ⟨word, rfl⟩ ⟨word', rfl⟩ h
    have hdigest : 2 * word = 2 * word' := h
    have hword : word = word' := by omega
    rw [hword]
  final _ _ h := h
  apart := by
    rintro _ ⟨word, rfl⟩ a b h
    have hdigest : 2 * word = 2 * Nat.pair a b + 1 := h
    omega

/-- Blocks with one transaction and with two have different roots. -/
theorem merkle_root_binding_two :
    (sampleBlock .null 0 (initMinerName 0) [referring 0 0 []]).calculateMerkleRoot pairingEnv ≠
      (sampleBlock .null 0 (initMinerName 0)
        [referring 0 0 [], referring 0 1 []]).calculateMerkleRoot pairingEnv := by
  intro hroot
  have hsame := (merkle_root_binding pairingEnv).2.2 _ pairingEnv_collisionFree
    (sampleBlock .null 0 (initMinerName 0) [referring 0 0 []])
    (sampleBlock .null 0 (initMinerName 0) [referring 0 0 [], referring 0 1 []])
    (List.cons_ne_nil _ _) (List.cons_ne_nil _ _)
    (fun trx htrx => ⟨0, List.mem_singleton.mp htrx⟩) ?_ hroot
  · exact absurd (congrArg List.length hsame) (by decide)
  · intro trx htrx
    rcases List.mem_cons.mp htrx with rfl | htrx
    · exact ⟨0, rfl⟩
    · exact ⟨1, List.mem_singleton.mp htrx⟩

end Roots

end Whaleshares.MerkleRoot
