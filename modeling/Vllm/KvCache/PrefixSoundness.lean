import Vllm.KvCache.HashChain
import Mathlib.Logic.Equiv.List

/-! What equal block hashes say about two requests. The extra keys are flattened into one tuple, so
a LoRA name can stand for a salt, and not all features that overlap a block are listed for it. -/
namespace Vllm
open Function ExtraKey List

/-- The four sources of one block's extra keys, in the order they are concatenated. -/
def keyList (lora : Option String) (items : List (String × ℤ)) (salt : Option String)
    (embeds : Option (List UInt8)) : List ExtraKey :=
  (lora.map .str).toList ++ items.map (fun item => .mm item.1 item.2) ++
    (salt.map .str).toList ++ (embeds.map .bytes).toList

/-- One side has only an adapter, the other only a salt, of the same name. -/
def SwappedNames (lora salt lora' salt' : Option String) : Prop :=
  ∃ name, (lora = some name ∧ salt = none ∧ lora' = none ∧ salt' = some name) ∨
    (lora = none ∧ salt = some name ∧ lora' = some name ∧ salt' = none)

def ExtraKey.item? : ExtraKey → Option (String × ℤ)
  | .mm identifier offset => some (identifier, offset)
  | _ => none

def ExtraKey.digest? : ExtraKey → Option (List UInt8)
  | .bytes digest => some digest
  | _ => none

def ExtraKey.name? : ExtraKey → Option String
  | .str s => some s
  | _ => none

theorem filterMap_keyList {β : Type} (f : ExtraKey → Option β) (lora salt : Option String)
    (items : List (String × ℤ)) (embeds : Option (List UInt8)) :
    (keyList lora items salt embeds).filterMap f =
      (lora.bind fun s => f (.str s)).toList ++
        items.filterMap (fun item => f (.mm item.1 item.2)) ++
        (salt.bind fun s => f (.str s)).toList ++ (embeds.bind fun d => f (.bytes d)).toList := by
  have hopt {γ : Type} (o : Option γ) (g : γ → ExtraKey) :
      (o.map g).toList.filterMap f = (o.bind fun c => f (g c)).toList := by
    cases o with
    | none => rfl
    | some c => cases hc : f (g c) <;> simp [hc]
  simp only [keyList, filterMap_append, hopt, filterMap_map, comp_def]

section
variable (lora salt : Option String) (items : List (String × ℤ)) (embeds : Option (List UInt8))
include lora salt items embeds

theorem keyList_items : (keyList lora items salt embeds).filterMap item? = items := by
  simp [filterMap_keyList, item?]

theorem keyList_digest : (keyList lora items salt embeds).filterMap digest? = embeds.toList := by
  simp [filterMap_keyList, digest?]

theorem keyList_names :
    (keyList lora items salt embeds).filterMap name? = lora.toList ++ salt.toList := by
  simp [filterMap_keyList, name?]

end

/-- Where the flattened tuple cannot be taken apart again. -/
theorem keyList_eq_iff {lora lora' salt salt' : Option String}
    {items items' : List (String × ℤ)} {embeds embeds' : Option (List UInt8)} :
    keyList lora items salt embeds = keyList lora' items' salt' embeds' ↔
      items = items' ∧ embeds = embeds' ∧
        ((lora = lora' ∧ salt = salt') ∨ (items = [] ∧ SwappedNames lora salt lora' salt')) := by
  constructor
  · intro h
    have hitems : items = items' := by
      have := congrArg (List.filterMap item?) h
      rwa [keyList_items, keyList_items] at this
    have hembeds : embeds = embeds' := by
      have := congrArg (List.filterMap digest?) h
      rw [keyList_digest, keyList_digest] at this
      cases embeds <;> cases embeds' <;> simp_all
    have hnames := congrArg (List.filterMap name?) h
    rw [keyList_names, keyList_names] at hnames
    subst hitems
    refine ⟨rfl, hembeds, ?_⟩
    cases items with
    | nil =>
      cases lora <;> cases salt <;> cases lora' <;> cases salt' <;> simp_all [SwappedNames]
    | cons item items =>
      cases lora <;> cases salt <;> cases lora' <;> cases salt' <;> simp_all [keyList]
  · rintro ⟨rfl, rfl, ⟨rfl, rfl⟩ | ⟨rfl, name, ⟨rfl, rfl, rfl, rfl⟩ | ⟨rfl, rfl, rfl, rfl⟩⟩⟩
    all_goals rfl

/-- The features listed for each block, by the block's index and its bounds. -/
abbrev Listing := ℕ → ℕ → ℕ → List MultiModalFeatureSpec

/-- The calls of the hasher on a request to which tokens are appended between the calls. A call
lists what it sees of the features at that time for the blocks it hashes. -/
inductive Hashed (hasher : BlockHasher) : Request → Listing → Prop
  | new {r} (hnew : r.blockHashes = []) (listed) : Hashed hasher r listed
  | call {r r₁ r' listed} (h : Hashed hasher r listed) (htokens : r.allTokenIds <+: r₁.allTokenIds)
      (hlora : r₁.loraRequest = r.loraRequest) (hsalt : r₁.cacheSalt = r.cacheSalt)
      (hembeds : r₁.promptEmbeds = r.promptEmbeds) (hhashes : r₁.blockHashes = r.blockHashes)
      (hsorted : SortedFeatures r₁.mmFeatures)
      (hcall : r₁.updateBlockHashes (some hasher) = .ok r') :
      Hashed hasher r' fun j => if j < r.blockHashes.length then listed j else listedFeatures r₁

theorem Hashed.chain {hasher : BlockHasher} {r : Request} {listed : Listing}
    (h : Hashed hasher r listed) : r.blockHashes.length ≤ r.numTokens / hasher.blockSize ∧
      r.blockHashes = hashesUpTo hasher r.allTokenIds
        (fun j => blockExtraKeys hasher r (listed j) j) r.blockHashes.length := by
  induction h with
  | new hnew => simp [hnew, hashesUpTo]
  | @call r r₁ r' listed h htokens hlora hsalt hembeds hhashes hsorted hcall ih =>
    obtain ⟨hle, hchain⟩ := ih
    let listed' : Listing := fun j => if j < r.blockHashes.length then listed j
      else listedFeatures r₁
    obtain ⟨more, hmore⟩ := htokens
    have hgrown : r.numTokens ≤ r₁.numTokens := by
      unfold Request.numTokens
      rw [← hmore, length_append]
      exact Nat.le_add_right _ _
    have hold : r₁.blockHashes = hashesUpTo hasher r₁.allTokenIds
        (fun j => blockExtraKeys hasher r₁ (listed' j) j) r.blockHashes.length := by
      rw [hhashes, ← hmore, hashesUpTo_append hasher _ _ _ hle]
      conv_lhs => rw [hchain]
      refine hashesUpTo_congr hasher fun j hj => ⟨rfl, ?_⟩
      have hsame : listed' j = listed j := if_pos hj
      rw [hsame]
      exact (blockExtraKeys_congr hlora hsalt hembeds rfl).symm
    have hrun := updateBlockHashes_eq hsorted hold
      (hle.trans (Nat.div_le_div_right hgrown)) fun j hj _ => by
        have hlisted : listed' j = listedFeatures r₁ := if_neg (by omega)
        rw [hlisted]
    obtain rfl := Except.ok.inj (hrun.symm.trans hcall)
    rw [hashesUpTo_length]
    exact ⟨le_rfl, hashesUpTo_congr hasher fun j _ => ⟨rfl, blockExtraKeys_congr rfl rfl rfl rfl⟩⟩

theorem Hashed.append {hasher : BlockHasher} {r r' : Request} {listed : Listing}
    {tokenIds : List TokenId} (h : Hashed hasher r listed) (hsorted : SortedFeatures r.mmFeatures)
    (happend : r.appendOutputTokenIds (some hasher) tokenIds = .ok r') :
    ∃ listed', Hashed hasher r' listed' := by
  let grown : Request := { r with
    outputTokenIds := r.outputTokenIds ++ tokenIds
    allTokenIds := r.allTokenIds ++ tokenIds }
  have htokens : r.allTokenIds <+: grown.allTokenIds := prefix_append _ _
  exact ⟨_, h.call htokens rfl rfl rfl rfl hsorted happend⟩

section Blocks
variable (hasher : BlockHasher)

/-- The listed items of block `j`: identifier and position relative to the block. -/
def listedItems (listed : Listing) (j : ℕ) : List (String × ℤ) :=
  mmItems (listed j (j * hasher.blockSize) ((j + 1) * hasher.blockSize)) (j * hasher.blockSize)

/-- All items overlapping block `j`. -/
def blockItems (r : Request) (j : ℕ) : List (String × ℤ) :=
  listedItems hasher (fun _ => overlapping r.mmFeatures) j

/-- The raw prompt embeddings of block `j`. -/
def blockEmbeds (r : Request) (j : ℕ) : Option (List UInt8) :=
  r.promptEmbeds.map fun rows =>
    tensorData (slice rows (j * hasher.blockSize) ((j + 1) * hasher.blockSize))

end Blocks

def loraName (r : Request) : Option String := r.loraRequest.map LoRARequest.loraName

/-- The salt as the hasher sees it. -/
def effectiveSalt (r : Request) : Option String := r.cacheSalt.filter fun salt => salt ≠ ""

/-- The content that blocks `0..i` of two requests share. -/
structure SameContent (hasher : BlockHasher) (r₁ r₂ : Request) (i : ℕ) : Prop where
  tokens : ∀ j ≤ i, blockTokens hasher r₁.allTokenIds j = blockTokens hasher r₂.allTokenIds j
  lora : loraName r₁ = loraName r₂
  salt : r₁.cacheSalt = r₂.cacheSalt
  items : ∀ j ≤ i, blockItems hasher r₁ j = blockItems hasher r₂ j
  embeds : ∀ j ≤ i, blockEmbeds hasher r₁ j = blockEmbeds hasher r₂ j

/-- The pairs whose content differs where the hash does not look: same tokens, embeddings and
listed items, but a different item that is not listed, an empty salt against none, or, in the first
block and without listed items, an adapter against a salt. -/
structure Indistinct (hasher : BlockHasher) (r₁ r₂ : Request) (listed₁ listed₂ : Listing) (i : ℕ) :
    Prop where
  tokens : ∀ j ≤ i, blockTokens hasher r₁.allTokenIds j = blockTokens hasher r₂.allTokenIds j
  embeds : ∀ j ≤ i, blockEmbeds hasher r₁ j = blockEmbeds hasher r₂ j
  listed : ∀ j ≤ i, listedItems hasher listed₁ j = listedItems hasher listed₂ j
  differs : (loraName r₁ = loraName r₂ ∧ effectiveSalt r₁ = effectiveSalt r₂ ∧
      (r₁.cacheSalt ≠ r₂.cacheSalt ∨ ∃ j ≤ i, blockItems hasher r₁ j ≠ blockItems hasher r₂ j)) ∨
    (i = 0 ∧ listedItems hasher listed₁ 0 = [] ∧
      SwappedNames (loraName r₁) (effectiveSalt r₁) (loraName r₂) (effectiveSalt r₂))

theorem cacheSaltKeys_zero (r : Request) :
    cacheSaltKeys r 0 = ((effectiveSalt r).map .str).toList := by
  unfold cacheSaltKeys effectiveSalt
  cases r.cacheSalt with
  | none => rfl
  | some salt => by_cases h : salt = "" <;> simp [h, Option.filter]

theorem cacheSaltKeys_pos (r : Request) {start : ℕ} (h : start ≠ 0) :
    cacheSaltKeys r start = [] := by
  unfold cacheSaltKeys
  cases r.cacheSalt with
  | none => rfl
  | some salt => simp [h]

/-- The salt that enters block `j`. -/
def saltAt (r : Request) (j : ℕ) : Option String := if j = 0 then effectiveSalt r else none

theorem blockExtraKeys_listed (hasher : BlockHasher) (r : Request) (listed : Listing) (j : ℕ) :
    blockExtraKeys hasher r (listed j) j =
      (let keys := keyList (loraName r) (listedItems hasher listed j) (saltAt r j)
        ((blockEmbeds hasher r j).map hasher.sha256)
      if keys = [] then none else some keys) := by
  have hlora : genLoraExtraHashKeys r = ((loraName r).map .str).toList := by
    unfold genLoraExtraHashKeys loraName
    cases r.loraRequest <;> rfl
  have hembeds : genPromptEmbedsExtraHashKeys hasher.sha256 r (j * hasher.blockSize)
      ((j + 1) * hasher.blockSize) =
        (((blockEmbeds hasher r j).map hasher.sha256).map .bytes).toList := by
    unfold genPromptEmbedsExtraHashKeys blockEmbeds
    cases r.promptEmbeds <;> rfl
  have hsalt : cacheSaltKeys r (j * hasher.blockSize) = ((saltAt r j).map .str).toList := by
    by_cases hj : j = 0
    · simp [hj, saltAt, cacheSaltKeys_zero]
    · have hstart : j * hasher.blockSize ≠ 0 := Nat.mul_ne_zero hj hasher.blockSize_pos.ne'
      simp [hj, saltAt, cacheSaltKeys_pos r hstart]
  simp only [blockExtraKeys, keyList, hlora, hembeds, hsalt, mmKeys, listedItems]
  rfl

theorem blockExtraKeys_eq_iff {hasher : BlockHasher} (hsha : Injective hasher.sha256)
    (r₁ r₂ : Request) (listed₁ listed₂ : Listing) (j : ℕ) :
    blockExtraKeys hasher r₁ (listed₁ j) j = blockExtraKeys hasher r₂ (listed₂ j) j ↔
      listedItems hasher listed₁ j = listedItems hasher listed₂ j ∧
      blockEmbeds hasher r₁ j = blockEmbeds hasher r₂ j ∧
        ((loraName r₁ = loraName r₂ ∧ saltAt r₁ j = saltAt r₂ j) ∨
          (listedItems hasher listed₁ j = [] ∧
            SwappedNames (loraName r₁) (saltAt r₁ j) (loraName r₂) (saltAt r₂ j))) := by
  have hwrap (l l' : List ExtraKey) :
      ((if l = [] then none else some l) = if l' = [] then none else some l') ↔ l = l' := by
    cases l <;> cases l' <;> simp
  rw [blockExtraKeys_listed, blockExtraKeys_listed]
  simp only [hwrap, keyList_eq_iff, (Option.map_injective hsha).eq_iff]

/-- Exactly when two chains from the first block have the same hash at block `i`. -/
theorem chainHash_eq_iff {hasher : BlockHasher}
    (hinj : Injective hasher.cachingHashFn) (hne : ∀ x, hasher.cachingHashFn x ≠ [])
    (hsha : Injective hasher.sha256) (r₁ r₂ : Request) (listed₁ listed₂ : Listing) (i : ℕ) :
    chainHash hasher r₁.allTokenIds (fun j => blockExtraKeys hasher r₁ (listed₁ j) j) i =
        chainHash hasher r₂.allTokenIds (fun j => blockExtraKeys hasher r₂ (listed₂ j) j) i ↔
      (∀ j ≤ i, blockTokens hasher r₁.allTokenIds j = blockTokens hasher r₂.allTokenIds j) ∧
      (∀ j ≤ i, blockEmbeds hasher r₁ j = blockEmbeds hasher r₂ j) ∧
      (∀ j ≤ i, listedItems hasher listed₁ j = listedItems hasher listed₂ j) ∧
      ((loraName r₁ = loraName r₂ ∧ effectiveSalt r₁ = effectiveSalt r₂) ∨
        (i = 0 ∧ listedItems hasher listed₁ 0 = [] ∧
          SwappedNames (loraName r₁) (effectiveSalt r₁) (loraName r₂) (effectiveSalt r₂))) := by
  constructor
  · intro h
    have hall := chainHash_injective hinj hne h
    have hkeys (j : ℕ) (hj : j ≤ i) :=
      (blockExtraKeys_eq_iff hsha r₁ r₂ listed₁ listed₂ j).mp (hall j hj).2
    refine ⟨fun j hj => (hall j hj).1, fun j hj => (hkeys j hj).2.1, fun j hj => (hkeys j hj).1, ?_⟩
    rcases (hkeys 0 (Nat.zero_le i)).2.2 with hsame | ⟨hvis, hswap⟩
    · exact .inl hsame
    · rcases Nat.eq_zero_or_pos i with hi | hi
      · exact .inr ⟨hi, hvis, hswap⟩
      · have hone := (hkeys 1 hi).2.2
        obtain ⟨name, hs | hs⟩ := hswap <;> simp_all [saltAt, SwappedNames]
  · rintro ⟨htok, hemb, hvis, hnames⟩
    refine chainHash_congr hasher fun j hj => ⟨htok j hj, ?_⟩
    rw [blockExtraKeys_eq_iff hsha]
    refine ⟨hvis j hj, hemb j hj, ?_⟩
    rcases hnames with ⟨hl, hs⟩ | ⟨rfl, hnone, hswap⟩
    · exact .inl ⟨hl, by simp only [saltAt, hs]⟩
    · obtain rfl : j = 0 := by omega
      exact .inr ⟨hnone, hswap⟩

/-- However the hashes have been computed: equal hashes at block `i` mean equal content of the
blocks up to `i`, except on the pairs the hash cannot tell apart. -/
theorem requestBlockHasher_sound_iff {hasher : BlockHasher}
    (hinj : Injective hasher.cachingHashFn) (hne : ∀ x, hasher.cachingHashFn x ≠ [])
    (hsha : Injective hasher.sha256) {r₁ r₂ : Request} {listed₁ listed₂ : Listing}
    (h₁ : Hashed hasher r₁ listed₁) (h₂ : Hashed hasher r₂ listed₂)
    (i : ℕ) (hi₁ : i < r₁.blockHashes.length) (hi₂ : i < r₂.blockHashes.length) :
    (r₁.blockHashes[i] = r₂.blockHashes[i] → SameContent hasher r₁ r₂ i) ↔
      ¬ Indistinct hasher r₁ r₂ listed₁ listed₂ i := by
  have hashAt {r : Request} {listed : Listing} (h : Hashed hasher r listed)
      (hi : i < r.blockHashes.length) : r.blockHashes[i] = chainHash hasher r.allTokenIds
        (fun j => blockExtraKeys hasher r (listed j) j) i := by
    rw [List.getElem_of_eq h.chain.2]
    simp [hashesUpTo]
  rw [hashAt h₁ hi₁, hashAt h₂ hi₂, chainHash_eq_iff hinj hne hsha]
  constructor
  · rintro hsound ⟨htok, hemb, hlisted, hdiff⟩
    rcases hdiff with ⟨hl, hs, hother⟩ | ⟨hi, hnone, name, hswap⟩
    · have hsame := hsound ⟨htok, hemb, hlisted, .inl ⟨hl, hs⟩⟩
      rcases hother with hsalt | ⟨j, hj, hitems⟩
      · exact hsalt hsame.salt
      · exact hitems (hsame.items j hj)
    · have hsame := hsound ⟨htok, hemb, hlisted, .inr ⟨hi, hnone, name, hswap⟩⟩
      have := hsame.lora
      rcases hswap with ⟨hl, -, hl', -⟩ | ⟨hl, -, hl', -⟩ <;> simp_all
  · rintro hnot ⟨htok, hemb, hlisted, hnames⟩
    rcases hnames with ⟨hl, hs⟩ | hswap
    · have hother : ¬ (r₁.cacheSalt ≠ r₂.cacheSalt ∨
          ∃ j ≤ i, blockItems hasher r₁ j ≠ blockItems hasher r₂ j) :=
        fun ho => hnot ⟨htok, hemb, hlisted, .inl ⟨hl, hs, ho⟩⟩
      push Not at hother
      exact ⟨htok, hl, hother.1, hother.2, hemb⟩
    · exact absurd ⟨htok, hemb, hlisted, .inr hswap⟩ hnot

/-- The parts of a key as numbers, for an injective hash function to run the hasher with. -/
def ExtraKey.flat : ExtraKey → ℕ × List ℕ × ℤ
  | .str s => (0, s.toList.map Char.toNat, 0)
  | .mm identifier offset => (1, identifier.toList.map Char.toNat, offset)
  | .bytes digest => (2, digest.map UInt8.toNat, 0)

theorem ExtraKey.flat_injective : Injective flat := by
  have hchar : Injective (List.map Char.toNat) :=
    map_injective_iff.mpr fun a b h => Char.toNat_inj.mp h
  have hbyte : Injective (List.map UInt8.toNat) :=
    map_injective_iff.mpr fun a b h => UInt8.toNat_inj.mp h
  intro a b h
  cases a <;> cases b <;> simp_all [flat, hchar.eq_iff, hbyte.eq_iff, String.toList_inj]

/-- A number for every hash input. -/
def HashInput.code (x : HashInput) : ℕ :=
  Encodable.encode (x.parent.map UInt8.toNat, x.tokenIds, x.extraKeys.map (List.map ExtraKey.flat))

theorem HashInput.code_injective : Injective HashInput.code := by
  have hbyte : Injective (List.map UInt8.toNat) :=
    map_injective_iff.mpr fun a b h => UInt8.toNat_inj.mp h
  have hkeys : Injective (Option.map (List.map flat)) :=
    Option.map_injective (map_injective_iff.mpr flat_injective)
  rintro ⟨p, t, k⟩ ⟨p', t', k'⟩ h
  have := Encodable.encode_injective h
  simp_all [hbyte.eq_iff, hkeys.eq_iff]

/-- Digests in unary: injective and never empty. -/
def unaryHasher (blockSize : ℕ) (h : 0 < blockSize) : BlockHasher where
  blockSize := blockSize
  blockSize_pos := h
  cachingHashFn := fun x => List.replicate (x.code + 1) 0
  noneHash := []
  sha256 := id

theorem unaryHasher_injective {blockSize : ℕ} (h : 0 < blockSize) :
    Injective (unaryHasher blockSize h).cachingHashFn := by
  intro x y hxy
  have := congrArg List.length hxy
  simp only [unaryHasher, length_replicate, Nat.add_right_cancel_iff] at this
  exact HashInput.code_injective this

/-- Two tokens under the adapter `"tenant"`. -/
def adapterRequest : Request :=
  { requestId := 0, promptTokenIds := some [7, 8], numPromptTokens := 2, allTokenIds := [7, 8]
    loraRequest := some ⟨"tenant", 1⟩ }

/-- The same tokens under the cache salt `"tenant"`. -/
def saltRequest : Request :=
  { requestId := 1, promptTokenIds := some [7, 8], numPromptTokens := 2, allTokenIds := [7, 8]
    cacheSalt := some "tenant" }

/-- The request with its first hashes, and with those that two more tokens complete. -/
def Request.hashedFirst (r : Request) (hasher : BlockHasher) (keys : Option (List ExtraKey)) :
    Request :=
  { r with blockHashes := [hashBlockTokens hasher none [7, 8] keys] }

def Request.hashedTwice (r : Request) (hasher : BlockHasher) (keys : Option (List ExtraKey)) :
    Request :=
  let first := hashBlockTokens hasher none [7, 8] keys
  { r with
    outputTokenIds := r.outputTokenIds ++ [9, 10]
    allTokenIds := r.allTokenIds ++ [9, 10]
    blockHashes := [first, hashBlockTokens hasher (some first) [9, 10] keys] }

/-- An adapter and a salt of the same name give the first block one hash. -/
theorem requestBlockHasher_not_sound :
    ¬ ∀ (hasher : BlockHasher), Injective hasher.cachingHashFn →
      (∀ x, hasher.cachingHashFn x ≠ []) → Injective hasher.sha256 →
      ∀ (r₁ r₂ : Request) (listed₁ listed₂ : Listing), Hashed hasher r₁ listed₁ →
      Hashed hasher r₂ listed₂ →
      ∀ (i : ℕ) (hi₁ : i < r₁.blockHashes.length) (hi₂ : i < r₂.blockHashes.length),
        r₁.blockHashes[i] = r₂.blockHashes[i] → SameContent hasher r₁ r₂ i := by
  intro h
  let hasher := unaryHasher 2 (by decide)
  have hashed : ∀ r : Request, r.blockHashes = [] → SortedFeatures r.mmFeatures →
      r.updateBlockHashes (some hasher) =
        .ok (r.hashedFirst hasher (some [.str "tenant"])) →
      ∃ listed, Hashed hasher (r.hashedFirst hasher (some [.str "tenant"])) listed := by
    intro r hnew hsorted hcall
    exact ⟨_, .call (.new hnew fun _ => visible r.mmFeatures) (prefix_refl _) rfl rfl rfl rfl
      hsorted hcall⟩
  obtain ⟨listed₁, h₁⟩ := hashed adapterRequest rfl .nil rfl
  obtain ⟨listed₂, h₂⟩ := hashed saltRequest rfl .nil rfl
  have hsame := h hasher (unaryHasher_injective _) (fun x => by simp [hasher, unaryHasher])
    injective_id _ _ _ _ h₁ h₂ 0 (by simp [Request.hashedFirst]) (by simp [Request.hashedFirst]) rfl
  exact absurd hsame.lora (by decide)

/-- Two requests under different adapters, hashed in two calls, are told apart. -/
theorem requestBlockHasher_sound_adapters :
    let hasher := unaryHasher 2 (by decide)
    let tenant := adapterRequest.hashedTwice hasher (some [.str "tenant"])
    let guest := { adapterRequest with loraRequest := some ⟨"guest", 2⟩ }.hashedTwice hasher
      (some [.str "guest"])
    tenant.blockHashes[1]? ≠ guest.blockHashes[1]? := by
  intro hasher tenant guest heq
  have hashed : ∀ (r : Request) (keys : Option (List ExtraKey)), r.blockHashes = [] →
      SortedFeatures r.mmFeatures →
      r.updateBlockHashes (some hasher) = .ok (r.hashedFirst hasher keys) →
      (r.hashedFirst hasher keys).appendOutputTokenIds (some hasher) [9, 10] =
        .ok (r.hashedTwice hasher keys) →
      ∃ listed, Hashed hasher (r.hashedTwice hasher keys) listed := by
    intro r keys hnew hsorted hfirst hsecond
    have h := Hashed.call (.new hnew fun _ => visible r.mmFeatures) (prefix_refl _) rfl rfl rfl rfl
      hsorted hfirst
    exact h.append hsorted hsecond
  obtain ⟨listed₁, h₁⟩ := hashed adapterRequest (some [.str "tenant"]) rfl .nil rfl rfl
  obtain ⟨listed₂, h₂⟩ := hashed { adapterRequest with loraRequest := some ⟨"guest", 2⟩ }
    (some [.str "guest"]) rfl .nil rfl rfl
  have hsound := (requestBlockHasher_sound_iff (unaryHasher_injective _)
    (fun x => by simp [unaryHasher]) injective_id h₁ h₂ 1 (by simp [Request.hashedTwice])
    (by simp [Request.hashedTwice])).mpr (fun hindistinct => by
      obtain ⟨hlora, -⟩ | ⟨hzero, -⟩ := hindistinct.differs
      · exact absurd hlora (by decide)
      · simp at hzero)
  have hsame := hsound (Option.some.inj heq)
  exact absurd hsame.lora (by decide)

end Vllm
