import Mathlib.Algebra.BigOperators.Group.List.Basic
import UtxoWorkshop.UtxoPallet

/-! What validation accepts and what a spend does, with the loops summed up: one equivalence
for `validateTransaction` and one for each outcome of `spend`. Later modules use these and
never unfold the loops again. -/
namespace UtxoValidation

open MachineWords ScaleCodec KeyedStore UtxoTransaction UtxoPallet

section Except

variable {α β : Type} {ε : Type} {e : ε} {r : α}

theorem pure_eq_ok {a : α} : (pure a : Except ε α) = .ok r ↔ a = r := Except.ok.injEq a r ▸ Iff.rfl

theorem bind_eq_ok {x : Except ε β} {f : β → Except ε α} :
    (x >>= f) = .ok r ↔ ∃ b, x = .ok b ∧ f b = .ok r := by
  cases x with
  | error e => exact ⟨nofun, nofun⟩
  | ok b => exact ⟨fun h => ⟨b, rfl, h⟩, fun ⟨_, hb, h⟩ => by cases hb; exact h⟩

theorem ensure_bind_eq_ok {p : Prop} [Decidable p] {f : Unit → Except ε α} :
    (ensure p e >>= f) = .ok r ↔ p ∧ f () = .ok r := by
  by_cases hp : p
  · simp [ensure, hp]
  · simp [ensure, hp]
    exact nofun

theorem okOr_bind_eq_ok {o : Option β} {f : β → Except ε α} :
    (okOr o e >>= f) = .ok r ↔ ∃ b, o = some b ∧ f b = .ok r := by
  cases o with
  | none => exact ⟨nofun, nofun⟩
  | some b => exact ⟨fun h => ⟨b, rfl, h⟩, fun ⟨_, hb, h⟩ => by cases hb; exact h⟩

theorem toOption_eq_some {x : Except ε α} : x.toOption = some r ↔ x = .ok r := by
  cases x <;> simp [Except.toOption]

end Except

variable {N : Type} {E : Env N} {s : State N}

def outputValue (output : TransactionOutput) : ℕ := output.value.val

def inputValue (s : State N) (input : TransactionInput) : ℕ :=
  weightAt outputValue s.utxoStore input.outpoint

def SignaturesValid (E : Env N) (s : State N) (message : Bytes)
    (inputs : List TransactionInput) : Prop :=
  ∀ input ∈ inputs, ∀ utxo, s.utxoStore.lookup input.outpoint = some utxo →
    E.sr25519Verify input.sigscript message utxo.pubkey

theorem checkInputs_eq_ok {message : Bytes} {inputs : List TransactionInput}
    {acc total : Value} {req requires : List Bytes} :
    checkInputs E s message inputs acc req = .ok (total, requires) ↔
      SignaturesValid E s message inputs ∧
      acc.val + (inputs.map (inputValue s)).sum = total.val ∧
      requires = req ++ ((inputs.map TransactionInput.outpoint).filter fun outpoint =>
        (s.utxoStore.lookup outpoint).isNone).map FixedHash.bytes := by
  induction inputs generalizing acc req with
  | nil =>
    simp only [checkInputs, pure_eq_ok, Prod.mk.injEq]
    constructor
    · intro h
      rcases h with ⟨rfl, rfl⟩
      exact ⟨by simp [SignaturesValid], by simp, by simp⟩
    · intro h
      rcases h with ⟨-, hsum, hreq⟩
      exact ⟨Fin.ext (by simpa using hsum), by simpa using hreq.symm⟩
  | cons input rest ih =>
    cases hl : s.utxoStore.lookup input.outpoint with
    | none =>
      simp only [checkInputs, hl, ih]
      simp [SignaturesValid, inputValue, weightAt, hl]
    | some utxo =>
      simp only [checkInputs, hl, ensure_bind_eq_ok, okOr_bind_eq_ok, checkedAdd_eq_some, ih]
      have hv : inputValue s input = utxo.value.val := by
        simp [inputValue, weightAt, hl, outputValue]
      have hm : ((input :: rest).map TransactionInput.outpoint).filter (fun outpoint =>
          (s.utxoStore.lookup outpoint).isNone) = (rest.map TransactionInput.outpoint).filter
            fun outpoint => (s.utxoStore.lookup outpoint).isNone := by
        simp [hl]
      have hs : SignaturesValid E s message (input :: rest) ↔
          E.sr25519Verify input.sigscript message utxo.pubkey ∧
            SignaturesValid E s message rest := by
        simp [SignaturesValid, hl]
      rw [hm, hs, List.map_cons, List.sum_cons, hv]
      constructor
      · intro h
        rcases h with ⟨hsig, next, hnext, hrest, hsum, hreq⟩
        exact ⟨⟨hsig, hrest⟩, by omega, hreq⟩
      · intro h
        rcases h with ⟨⟨hsig, hrest⟩, hsum, hreq⟩
        have hlt := total.isLt
        exact ⟨hsig, ⟨acc.val + utxo.value.val, by omega⟩, rfl, hrest, by
          simp only; omega, hreq⟩

/-- Over all inputs, the loop finds what `get_missing_utxos` finds. -/
theorem missing_eq (s : State N) (t : Transaction) :
    [] ++ ((t.inputs.toList.map TransactionInput.outpoint).filter fun outpoint =>
      (s.utxoStore.lookup outpoint).isNone).map FixedHash.bytes =
        (getMissingUtxos s t).map FixedHash.bytes := rfl

/-- The key of the output at position `i` of the transaction. -/
def outputKey (E : Env N) (t : Transaction) (i : ℕ) : H256 := outputHash E t (Fin.ofNat _ i)

def outputEntries (E : Env N) (t : Transaction) (outputs : List TransactionOutput) (i : ℕ) :
    List (H256 × TransactionOutput) :=
  (outputs.zipIdx i).map fun p => (outputKey E t p.2, p.1)

def createdOutputs (E : Env N) (t : Transaction) : List (H256 × TransactionOutput) :=
  outputEntries E t t.outputs.toList 0

theorem outputKey_val (E : Env N) (t : Transaction) (i : U64) :
    outputKey E t i.val = outputHash E t i := by
  simp [outputKey]

theorem outputEntries_cons (E : Env N) (t : Transaction) (output : TransactionOutput)
    (rest : List TransactionOutput) (i : U64) :
    outputEntries E t (output :: rest) i.val =
      (outputHash E t i, output) :: outputEntries E t rest (i.val + 1) := by
  simp [outputEntries, outputKey_val]

theorem checkOutputs_eq_ok {t : Transaction} {outputs : List TransactionOutput} {i : U64}
    {acc total : Value} {prov provides : List Bytes} :
    checkOutputs E s t outputs i acc prov = .ok (total, provides) ↔
      (∀ output ∈ outputs, 0 < output.value) ∧ i.val + outputs.length < 2 ^ 64 ∧
      (∀ e ∈ outputEntries E t outputs i.val, e.1 ∉ s.utxoStore) ∧
      acc.val + (outputs.map outputValue).sum = total.val ∧
      provides = prov ++ (outputEntries E t outputs i.val).map fun e => e.1.bytes := by
  induction outputs generalizing i acc prov with
  | nil =>
    simp only [checkOutputs, pure_eq_ok, Prod.mk.injEq]
    constructor
    · intro h
      rcases h with ⟨rfl, rfl⟩
      exact ⟨by simp, by simp, by simp [outputEntries], by simp,
        by simp [outputEntries]⟩
    · intro h
      rcases h with ⟨-, -, -, hsum, hprov⟩
      exact ⟨Fin.ext (by simpa using hsum), by simpa [outputEntries] using hprov.symm⟩
  | cons output rest ih =>
    simp only [checkOutputs, ensure_bind_eq_ok, okOr_bind_eq_ok, checkedAdd_eq_some, ih,
      outputEntries_cons, List.forall_mem_cons, List.length_cons, List.map_cons, List.sum_cons,
      outputValue]
    constructor
    · intro h
      rcases h with ⟨hpos, j, hj, hkey, next, hnext, hrest, hlen, hkeys, hsum, hprov⟩
      have hj : i.val + 1 = j.val := hj
      rw [← hj] at hkeys hprov hlen
      exact ⟨⟨hpos, hrest⟩, by omega, ⟨hkey, hkeys⟩, by omega, by simpa using hprov⟩
    · intro h
      rcases h with ⟨⟨hpos, hrest⟩, hlen, ⟨hkey, hkeys⟩, hsum, hprov⟩
      have hlt := total.isLt
      refine ⟨hpos, ⟨i.val + 1, by omega⟩, rfl, hkey, ⟨acc.val + output.value.val, by omega⟩,
        rfl, hrest, by simp only; omega, hkeys, by simp only; omega, by simpa using hprov⟩

def inputTotal (s : State N) (t : Transaction) : ℕ := (t.inputs.toList.map (inputValue s)).sum

def outputTotal (t : Transaction) : ℕ := (t.outputs.toList.map outputValue).sum

/-- What validation asks for, without the order in which it asks. -/
structure Valid (E : Env N) (s : State N) (t : Transaction) : Prop where
  inputs_nonempty : t.inputs.toList ≠ []
  outputs_nonempty : t.outputs.toList ≠ []
  inputs_distinct : t.inputs.toList.Nodup
  outputs_distinct : t.outputs.toList.Nodup
  signatures : SignaturesValid E s (getSimpleTransaction t) t.inputs.toList
  outputs_positive : ∀ output ∈ t.outputs.toList, 0 < output.value
  keys_fresh : ∀ e ∈ createdOutputs E t, e.1 ∉ s.utxoStore
  inputs_fit : inputTotal s t < 2 ^ 128
  outputs_fit : outputTotal t < 2 ^ 128
  balanced : getMissingUtxos s t = [] → outputTotal t ≤ inputTotal s t

/-- A valid transaction is known by what it consumes. -/
theorem Valid.exists_outpoint {t : Transaction} (h : Valid E s t) : ∃ k, k ∈ t.outpoints := by
  obtain ⟨input, hmem⟩ := List.exists_mem_of_ne_nil _ h.inputs_nonempty
  exact ⟨input.outpoint, List.mem_map_of_mem hmem⟩

/-- The priority is a `u64`: a larger fee loses its high bits. -/
def priority (s : State N) (t : Transaction) : U64 :=
  if getMissingUtxos s t = [] then Fin.ofNat _ (inputTotal s t - outputTotal t) else 0

def validTransaction (E : Env N) (s : State N) (t : Transaction) : ValidTransaction where
  requires := (getMissingUtxos s t).map FixedHash.bytes
  provides := (createdOutputs E t).map fun e => e.1.bytes
  priority := priority s t
  longevity := Fin.last _
  propagate := true

theorem dedup_length_iff {α : Type} [DecidableEq α] {l : List α} :
    l.dedup.length = l.length ↔ l.Nodup :=
  ⟨fun h => List.dedup_eq_self.mp ((List.dedup_sublist l).eq_of_length h),
    fun h => by rw [h.dedup]⟩

theorem checkBalance_eq_ok {req : List Bytes} {totalIn totalOut reward : Value} :
    checkBalance req totalIn totalOut = .ok reward ↔
      (req = [] → totalOut ≤ totalIn) ∧
      reward.val = if req = [] then totalIn.val - totalOut.val else 0 := by
  unfold checkBalance
  split_ifs with h
  · have hsub : (okOr (checkedSub totalIn totalOut) "reward underflow" : Except String Value) =
        .ok reward ↔ totalOut ≤ totalIn ∧ totalIn.val - totalOut.val = reward.val := by
      rw [← bind_pure (okOr _ _), okOr_bind_eq_ok]
      simp only [pure_eq_ok, checkedSub_eq_some, exists_eq_right, Fin.le_def]
    rw [ensure_bind_eq_ok, hsub]
    constructor
    · intro h
      rcases h with ⟨hle, -, hr⟩
      exact ⟨fun _ => hle, hr.symm⟩
    · intro h
      rcases h with ⟨hle, hr⟩
      exact ⟨hle h, hle h, hr.symm⟩
  · rw [pure_eq_ok]
    constructor
    · rintro rfl
      exact ⟨fun hreq => absurd hreq h, rfl⟩
    · intro h
      rcases h with ⟨-, hr⟩
      exact Fin.ext hr.symm

/-- Validation accepts the valid transactions and says of them what `validTransaction` says. -/
theorem validateTransaction_eq_ok {t : Transaction} {v : ValidTransaction} :
    validateTransaction E s t = .ok v ↔
      Valid E s t ∧ t.outputs.toList.length < 2 ^ 64 ∧ v = validTransaction E s t := by
  have hreq := missing_eq s t
  simp only [validateTransaction, ensure_bind_eq_ok, dedup_length_iff]
  constructor
  · intro h
    rcases h with ⟨hin, hout, hdin, hdout, h⟩
    obtain ⟨⟨totalIn, req⟩, hi, h⟩ := bind_eq_ok.mp h
    obtain ⟨⟨totalOut, prov⟩, ho, h⟩ := bind_eq_ok.mp h
    obtain ⟨reward, hb, h⟩ := bind_eq_ok.mp h
    obtain ⟨hsig, hsumIn, hreqs⟩ := checkInputs_eq_ok.mp hi
    obtain ⟨hpos, hlen, hkeys, hsumOut, hprov⟩ := checkOutputs_eq_ok.mp ho
    obtain ⟨hbal, hrew⟩ := checkBalance_eq_ok.mp hb
    rw [hreq] at hreqs
    subst hreqs hprov
    have hIn : inputTotal s t = totalIn.val := (Nat.zero_add _).symm.trans hsumIn
    have hOut : outputTotal t = totalOut.val := (Nat.zero_add _).symm.trans hsumOut
    simp only [List.map_eq_nil_iff, Fin.le_def, ← hIn, ← hOut] at hbal hrew
    refine ⟨⟨hin, hout, hdin, hdout, hsig, hpos, hkeys, hIn ▸ totalIn.isLt,
      hOut ▸ totalOut.isLt, hbal⟩, by simpa using hlen, ?_⟩
    rw [← pure_eq_ok.mp h]
    have hprio : cast 64 reward = priority s t := by
      apply Fin.ext
      rw [cast_val, hrew, priority]
      split_ifs <;> rfl
    rw [hprio]
    rfl
  · intro h
    rcases h with ⟨hv, hlen, rfl⟩
    refine ⟨hv.inputs_nonempty, hv.outputs_nonempty, hv.inputs_distinct, hv.outputs_distinct, ?_⟩
    have hi : checkInputs E s (getSimpleTransaction t) t.inputs.toList 0 [] =
        .ok (⟨inputTotal s t, hv.inputs_fit⟩, (getMissingUtxos s t).map FixedHash.bytes) :=
      checkInputs_eq_ok.mpr ⟨hv.signatures, Nat.zero_add _, rfl⟩
    have ho : checkOutputs E s t t.outputs.toList 0 0 [] =
        .ok (⟨outputTotal t, hv.outputs_fit⟩, (createdOutputs E t).map fun e => e.1.bytes) :=
      checkOutputs_eq_ok.mpr ⟨hv.outputs_positive, by simpa using hlen, hv.keys_fresh,
        Nat.zero_add _, rfl⟩
    let reward : Value := if getMissingUtxos s t = [] then
      ⟨inputTotal s t - outputTotal t, (Nat.sub_le _ _).trans_lt hv.inputs_fit⟩ else 0
    have hb : checkBalance ((getMissingUtxos s t).map FixedHash.bytes)
        ⟨inputTotal s t, hv.inputs_fit⟩ ⟨outputTotal t, hv.outputs_fit⟩ = .ok reward := by
      refine checkBalance_eq_ok.mpr ⟨fun h => hv.balanced (List.map_eq_nil_iff.mp h), ?_⟩
      simp only [reward, List.map_eq_nil_iff]
      split_ifs <;> rfl
    have hprio : cast 64 reward = priority s t := by
      simp only [reward, priority]
      split_ifs <;> rfl
    refine bind_eq_ok.mpr ⟨_, hi, bind_eq_ok.mpr ⟨_, ho, bind_eq_ok.mpr ⟨_, hb, ?_⟩⟩⟩
    rw [hprio]
    rfl

theorem ensure_run {p : Prop} [Decidable p] {e : DispatchError} :
    (ensure p e : Dispatch N Unit).run s = if p then .ok () s else .error e s := by
  by_cases hp : p <;> simp [ensure, hp]

theorem okOr_run {α : Type} {o : Option α} {e : DispatchError} :
    (okOr o e : Dispatch N α).run s =
      match o with
      | some a => .ok a s
      | none => .error e s := by
  cases o <;> rfl

/-- The counter of the writing loop cannot fail where the counter of the checking loop did not. -/
theorem insertOutputs_run {t : Transaction} {outputs : List TransactionOutput} {i : U64}
    (h : i.val + outputs.length < 2 ^ 64) (s : State N) :
    (insertOutputs E t outputs i).run s =
      .ok () { s with utxoStore := insertAll s.utxoStore (outputEntries E t outputs i.val) } := by
  induction outputs generalizing i s with
  | nil => rfl
  | cons output rest ih =>
    rw [List.length_cons] at h
    obtain ⟨j, hj, hval⟩ := exists_checkedAdd (a := i) (b := 1) (by
      change i.val + 1 < 2 ^ 64
      omega)
    have hval : j.val = i.val + 1 := hval
    simp only [insertOutputs, EStateM.run_bind, okOr_run, hj, EStateM.run_modify]
    rw [ih (by omega), outputEntries_cons, insertAll_cons, hval]

theorem updateStorage_run {t : Transaction} (h : t.outputs.toList.length < 2 ^ 64)
    (reward : Value) (s : State N) :
    (updateStorage E t reward).run s =
      match checkedAdd s.rewardTotal reward with
      | none => .error (.other "Reward overflow") s
      | some total => .ok () { s with
          rewardTotal := total
          utxoStore := update s.utxoStore t.outpoints (createdOutputs E t) } := by
  simp only [updateStorage, EStateM.run_bind, EStateM.run_get, okOr_run]
  cases checkedAdd s.rewardTotal reward with
  | none => rfl
  | some total =>
    simp only [EStateM.run_modify]
    rw [insertOutputs_run (by simpa using h)]
    rfl

/-- What a spend credits to the reward total: the priority of the validated transaction. -/
def credit (s : State N) (t : Transaction) : Value := cast 128 (priority s t)

def afterSpend (E : Env N) (s : State N) (t : Transaction) (total : Value) : State N where
  utxoStore := update s.utxoStore t.outpoints (createdOutputs E t)
  rewardTotal := total
  author := s.author
  blockNumber := s.blockNumber
  events := s.events ++ [.transactionSuccess t]

theorem spend_run (E : Env N) (s : State N) (o : Origin) (t : Transaction) :
    (spend E o t).run s =
      match validateTransaction E s t with
      | .error message => .error (.other message) s
      | .ok v =>
        if v.requires = [] then
          match checkedAdd s.rewardTotal (cast 128 v.priority) with
          | none => .error (.other "Reward overflow") s
          | some total => .ok () (afterSpend E s t total)
        else .error (.other "missing inputs") s := by
  simp only [spend, EStateM.run_bind, EStateM.run_get]
  cases hv : validateTransaction E s t with
  | error message => rfl
  | ok v =>
    obtain ⟨-, hlen, -⟩ := validateTransaction_eq_ok.mp hv
    simp only [EStateM.run_bind, EStateM.run_pure, ensure_run]
    by_cases hreq : v.requires = []
    · simp only [hreq, if_true, updateStorage_run hlen]
      cases checkedAdd s.rewardTotal (cast 128 v.priority) <;> rfl
    · simp only [hreq, if_false]

/-- The state accepts the transaction and has all of its inputs. -/
structure Spendable (E : Env N) (s : State N) (t : Transaction) : Prop extends Valid E s t where
  present : ∀ outpoint ∈ t.outpoints, outpoint ∈ s.utxoStore

theorem getMissingUtxos_eq_nil {t : Transaction} :
    getMissingUtxos s t = [] ↔ ∀ outpoint ∈ t.outpoints, outpoint ∈ s.utxoStore := by
  simp only [getMissingUtxos, List.filter_eq_nil_iff, Option.isNone_iff_eq_none,
    Finmap.lookup_eq_none, not_not]

theorem spendable_iff {t : Transaction} :
    Spendable E s t ↔ ∃ v, validateTransaction E s t = .ok v ∧ v.requires = [] := by
  constructor
  · intro h
    rcases h with ⟨hv, hp⟩
    refine ⟨_, validateTransaction_eq_ok.mpr ⟨hv, by have := t.outputs.size; omega, rfl⟩, ?_⟩
    exact List.map_eq_nil_iff.mpr (getMissingUtxos_eq_nil.mpr hp)
  · intro h
    rcases h with ⟨v, hv, hreq⟩
    obtain ⟨hvalid, -, rfl⟩ := validateTransaction_eq_ok.mp hv
    exact ⟨hvalid, getMissingUtxos_eq_nil.mp (List.map_eq_nil_iff.mp hreq)⟩

/-- The outputs and the credited fee are covered by the inputs. -/
theorem Spendable.credit_le {t : Transaction} (hs : Spendable E s t) :
    outputTotal t + (credit s t).val ≤ inputTotal s t := by
  have hmissing := getMissingUtxos_eq_nil.mpr hs.present
  have hbal := hs.balanced hmissing
  have hcredit : (credit s t).val ≤ inputTotal s t - outputTotal t := by
    rw [credit, priority, if_pos hmissing, cast_val_of_le _ (by decide)]
    exact Nat.mod_le _ _
  omega

theorem spend_eq_ok {o : Origin} {t : Transaction} {s' : State N} :
    (spend E o t).run s = .ok () s' ↔
      Spendable E s t ∧ ∃ total : Value, s.rewardTotal.val + (credit s t).val = total.val ∧
        s' = afterSpend E s t total := by
  rw [spend_run, spendable_iff]
  cases hv : validateTransaction E s t with
  | error message => exact ⟨nofun, fun ⟨⟨_, h, _⟩, _⟩ => nomatch h⟩
  | ok v =>
    obtain ⟨-, -, hv'⟩ := validateTransaction_eq_ok.mp hv
    have hprio : cast 128 v.priority = credit s t := by rw [hv']; rfl
    by_cases hreq : v.requires = []
    · simp only [hreq, if_true, hprio]
      cases hadd : checkedAdd s.rewardTotal (credit s t) with
      | none =>
        have hover := checkedAdd_eq_none.mp hadd
        refine ⟨nofun, fun ⟨_, total, htotal, _⟩ => ?_⟩
        have := total.isLt
        omega
      | some total =>
        have hsum := checkedAdd_eq_some.mp hadd
        constructor
        · intro h
          cases h
          exact ⟨⟨v, rfl, hreq⟩, total, hsum, rfl⟩
        · intro h
          rcases h with ⟨-, total', hsum', rfl⟩
          rw [Fin.ext (hsum.symm.trans hsum')]
    · simp only [hreq, if_false]
      exact ⟨nofun, fun ⟨⟨w, hw, hwreq⟩, _⟩ => by cases hw; exact absurd hwreq hreq⟩

theorem spend_succeeds_iff {o : Origin} {t : Transaction} : (∃ s', (spend E o t).run s = .ok () s') ↔
    ∃ v, validateTransaction E s t = .ok v ∧ v.requires = [] ∧
      s.rewardTotal.val + v.priority.val < 2 ^ 128 := by
  have hcredit : (credit s t).val = (priority s t).val := cast_val_of_le _ (by decide)
  constructor
  · intro h
    rcases h with ⟨s', h⟩
    obtain ⟨hs, total, htotal, -⟩ := spend_eq_ok.mp h
    obtain ⟨v, hv, hreq⟩ := spendable_iff.mp hs
    obtain ⟨-, -, rfl⟩ := validateTransaction_eq_ok.mp hv
    exact ⟨_, hv, hreq, by rw [validTransaction, ← hcredit, htotal]; exact total.isLt⟩
  · intro h
    rcases h with ⟨v, hv, hreq, hfit⟩
    have hs := spendable_iff.mpr ⟨v, hv, hreq⟩
    obtain ⟨-, -, rfl⟩ := validateTransaction_eq_ok.mp hv
    rw [validTransaction, ← hcredit] at hfit
    exact ⟨_, spend_eq_ok.mpr ⟨hs, ⟨_, hfit⟩, rfl, rfl⟩⟩

/-- Success can be computed from the verdict of the validation. -/
theorem spend_of_valid {o : Origin} {t : Transaction}
    (h : (validateTransaction E s t).toOption.any fun v =>
      v.requires = [] ∧ s.rewardTotal.val + v.priority.val < 2 ^ 128) :
    ∃ s', (spend E o t).run s = .ok () s' := by
  obtain ⟨v, hv, hok⟩ := (Option.any_eq_true _ _).mp h
  exact spend_succeeds_iff.mpr ⟨v, toOption_eq_some.mp hv, of_decide_eq_true hok⟩

/-- A failed spend leaves no trace, although nothing rolls it back. -/
theorem spend_error {o : Origin} {t : Transaction} {e : DispatchError} {s' : State N}
    (h : (spend E o t).run s = .error e s') : s' = s := by
  rw [spend_run] at h
  cases hv : validateTransaction E s t with
  | error message =>
    rw [hv] at h
    cases h
    rfl
  | ok v =>
    simp only [hv] at h
    split_ifs at h
    · cases hadd : checkedAdd s.rewardTotal (cast 128 v.priority) with
      | none =>
        rw [hadd] at h
        cases h
        rfl
      | some total =>
        rw [hadd] at h
        cases h
    · cases h
      rfl

end UtxoValidation
