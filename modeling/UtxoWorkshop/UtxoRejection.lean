import UtxoWorkshop.UtxoValidation

/-! Why validation turns a transaction down. The checks run in a fixed order and stop at the first
that fails, so every message names one fault and vouches for all the checks before it. Two of the
messages in the code are never given. -/
namespace UtxoRejection

open MachineWords ScaleCodec KeyedStore UtxoTransaction UtxoPallet UtxoValidation

section Errors

variable {α β ε : Type} {e e' : ε}

theorem bind_eq_error {x : Except ε β} {f : β → Except ε α} :
    (x >>= f) = .error e ↔ x = .error e ∨ ∃ b, x = .ok b ∧ f b = .error e := by
  cases x with
  | error e' =>
    constructor
    · intro h
      exact Or.inl (by cases h; rfl)
    · intro h
      rcases h with h | ⟨b, hb, -⟩
      · cases h
        rfl
      · cases hb
  | ok b =>
    constructor
    · intro h
      exact Or.inr ⟨b, rfl, h⟩
    · intro h
      rcases h with h | ⟨b', hb, h⟩
      · cases h
      · cases hb
        exact h

theorem ensure_bind_eq_error {p : Prop} [Decidable p] {f : Unit → Except ε α} :
    (ensure p e >>= f) = .error e' ↔ ¬ p ∧ e = e' ∨ p ∧ f () = .error e' := by
  have hthrow : (throw e : Except ε Unit) = .error e := rfl
  by_cases hp : p
  · simp [ensure, hp]
  · simp [ensure, hp, bind_eq_error, hthrow]

theorem okOr_bind_eq_error {o : Option β} {f : β → Except ε α} :
    (okOr o e >>= f) = .error e' ↔ o = none ∧ e = e' ∨ ∃ b, o = some b ∧ f b = .error e' := by
  have hthrow : (throw e : Except ε β) = .error e := rfl
  cases o with
  | none => simp [okOr, bind_eq_error, hthrow]
  | some b => simp [okOr]

/-- The first element is where a split list stops, or the split is one of the rest. -/
theorem exists_split_cons {a : α} {l : List α} {P : List α → α → Prop} :
    (∃ before x after, a :: l = before ++ x :: after ∧ P before x) ↔
      P [] a ∨ ∃ before x after, l = before ++ x :: after ∧ P (a :: before) x := by
  constructor
  · intro h
    rcases h with ⟨before, x, after, h, hp⟩
    cases before with
    | nil =>
      cases h
      exact Or.inl hp
    | cons b before =>
      cases h
      exact Or.inr ⟨before, x, after, rfl, hp⟩
  · intro h
    rcases h with hp | ⟨before, x, after, rfl, hp⟩
    · exact ⟨[], a, l, rfl, hp⟩
    · exact ⟨a :: before, x, after, rfl, hp⟩

end Errors

variable {N : Type} {E : Env N} {s : State N} {t : Transaction}

/-- What can be wrong with an input when those before it are worth `paid`. -/
inductive InputFault (E : Env N) (s : State N) (message : Bytes) (paid : ℕ)
    (input : TransactionInput) : String → Prop where
  | signature {utxo} (hu : s.utxoStore.lookup input.outpoint = some utxo)
      (hsig : ¬ E.sr25519Verify input.sigscript message utxo.pubkey) :
      InputFault E s message paid input "signature must be valid"
  | overflow {utxo} (hu : s.utxoStore.lookup input.outpoint = some utxo)
      (hsig : E.sr25519Verify input.sigscript message utxo.pubkey)
      (hover : 2 ^ 128 ≤ paid + utxo.value.val) :
      InputFault E s message paid input "input value overflow"

def InputsPass (E : Env N) (s : State N) (message : Bytes) (paid : ℕ)
    (inputs : List TransactionInput) : Prop :=
  SignaturesValid E s message inputs ∧ paid + (inputs.map (inputValue s)).sum < 2 ^ 128

theorem inputsPass_none {message : Bytes} {paid : ℕ} {input : TransactionInput}
    {rest : List TransactionInput} (h : s.utxoStore.lookup input.outpoint = none) :
    InputsPass E s message paid (input :: rest) ↔ InputsPass E s message paid rest := by
  simp [InputsPass, SignaturesValid, inputValue, weightAt, h]

theorem inputsPass_some {message : Bytes} {paid : ℕ} {input : TransactionInput}
    {rest : List TransactionInput} {utxo : TransactionOutput}
    (h : s.utxoStore.lookup input.outpoint = some utxo) :
    InputsPass E s message paid (input :: rest) ↔
      E.sr25519Verify input.sigscript message utxo.pubkey ∧
        InputsPass E s message (paid + utxo.value.val) rest := by
  simp [InputsPass, SignaturesValid, inputValue, weightAt, h, outputValue, Nat.add_assoc, and_assoc]

theorem inputValue_none {input : TransactionInput}
    (h : s.utxoStore.lookup input.outpoint = none) : inputValue s input = 0 := by
  simp [inputValue, weightAt, h]

theorem inputValue_some {input : TransactionInput} {utxo : TransactionOutput}
    (h : s.utxoStore.lookup input.outpoint = some utxo) : inputValue s input = utxo.value.val := by
  simp [inputValue, weightAt, h, outputValue]

theorem inputFault_some {message : Bytes} {paid : ℕ} {input : TransactionInput} {msg : String}
    {utxo : TransactionOutput} (h : s.utxoStore.lookup input.outpoint = some utxo) :
    InputFault E s message paid input msg ↔
      ¬ E.sr25519Verify input.sigscript message utxo.pubkey ∧ "signature must be valid" = msg ∨
        E.sr25519Verify input.sigscript message utxo.pubkey ∧
          2 ^ 128 ≤ paid + utxo.value.val ∧ "input value overflow" = msg := by
  constructor
  · intro hf
    cases hf with
    | signature hu hsig =>
      cases h.symm.trans hu
      exact Or.inl ⟨hsig, rfl⟩
    | overflow hu hsig hover =>
      cases h.symm.trans hu
      exact Or.inr ⟨hsig, hover, rfl⟩
  · intro hf
    rcases hf with ⟨hsig, rfl⟩ | ⟨hsig, hover, rfl⟩
    · exact .signature h hsig
    · exact .overflow h hsig hover

/-- The loop over the inputs stops at the first input with a fault. -/
theorem checkInputs_eq_error {message : Bytes} {inputs : List TransactionInput} {acc : Value}
    {req : List Bytes} {msg : String} :
    checkInputs E s message inputs acc req = .error msg ↔
      ∃ before input after, inputs = before ++ input :: after ∧
        InputsPass E s message acc.val before ∧
        InputFault E s message (acc.val + (before.map (inputValue s)).sum) input msg := by
  induction inputs generalizing acc req with
  | nil => simp [checkInputs, pure, Except.pure]
  | cons input rest ih =>
    rw [exists_split_cons (P := fun before input => InputsPass E s message acc.val before ∧
      InputFault E s message (acc.val + (before.map (inputValue s)).sum) input msg)]
    cases hl : s.utxoStore.lookup input.outpoint with
    | none =>
      have hfault : ¬ InputFault E s message (acc.val + (List.map (inputValue s) []).sum) input
          msg := by
        intro hf
        cases hf with
        | signature hu => cases hl.symm.trans hu
        | overflow hu => cases hl.symm.trans hu
      simp only [checkInputs, hl, ih, hfault, and_false, false_or, inputsPass_none hl,
        List.map_cons, List.sum_cons, inputValue_none hl, Nat.zero_add]
    | some utxo =>
      simp only [checkInputs, hl, ensure_bind_eq_error, okOr_bind_eq_error, checkedAdd_eq_none,
        checkedAdd_eq_some, ih, inputFault_some hl, inputsPass_some hl, List.map_cons,
        List.sum_cons, inputValue_some hl, List.map_nil, List.sum_nil, Nat.add_zero]
      have hnil : InputsPass E s message acc.val [] := ⟨by simp [SignaturesValid], by simp⟩
      simp only [← Nat.add_assoc]
      constructor
      · intro h
        rcases h with hsig | ⟨hsig, hover | ⟨b, hb, before, x, after, hrest, hpass, hfault⟩⟩
        · exact Or.inl ⟨hnil, Or.inl hsig⟩
        · exact Or.inl ⟨hnil, Or.inr ⟨hsig, hover⟩⟩
        · rw [← hb] at hpass hfault
          exact Or.inr ⟨before, x, after, hrest, ⟨hsig, hpass⟩, hfault⟩
      · intro h
        rcases h with ⟨-, hsig | ⟨hsig, hover⟩⟩ |
          ⟨before, x, after, hrest, ⟨hsig, hpass⟩, hfault⟩
        · exact Or.inl hsig
        · exact Or.inr ⟨hsig, Or.inl hover⟩
        · have hlt : acc.val + utxo.value.val < 2 ^ 128 := (Nat.le_add_right _ _).trans_lt hpass.2
          exact Or.inr ⟨hsig, Or.inr ⟨⟨_, hlt⟩, rfl, before, x, after, hrest, hpass, hfault⟩⟩

/-- What can be wrong with the output at position `i` when those before it are worth `total`. -/
inductive OutputFault (E : Env N) (s : State N) (t : Transaction) (i total : ℕ)
    (output : TransactionOutput) : String → Prop where
  | zero (hv : ¬ 0 < output.value) : OutputFault E s t i total output
      "output value must be nonzero"
  | taken (hv : 0 < output.value) (hkey : outputKey E t i ∈ s.utxoStore) :
      OutputFault E s t i total output "output already exists"
  | overflow (hv : 0 < output.value) (hkey : outputKey E t i ∉ s.utxoStore)
      (hover : 2 ^ 128 ≤ total + output.value.val) :
      OutputFault E s t i total output "output value overflow"

/-- The outputs from position `i` on have no fault. -/
def OutputsPass (E : Env N) (s : State N) (t : Transaction) (i total : ℕ)
    (outputs : List TransactionOutput) : Prop :=
  (∀ output ∈ outputs, 0 < output.value) ∧
    (∀ e ∈ outputEntries E t outputs i, e.1 ∉ s.utxoStore) ∧
    total + (outputs.map outputValue).sum < 2 ^ 128

theorem outputFault_iff {i total : ℕ} {output : TransactionOutput} {msg : String} :
    OutputFault E s t i total output msg ↔
      ¬ 0 < output.value ∧ "output value must be nonzero" = msg ∨ 0 < output.value ∧
        (outputKey E t i ∈ s.utxoStore ∧ "output already exists" = msg ∨
          outputKey E t i ∉ s.utxoStore ∧
            2 ^ 128 ≤ total + output.value.val ∧ "output value overflow" = msg) := by
  constructor
  · intro hf
    cases hf with
    | zero hv => exact Or.inl ⟨hv, rfl⟩
    | taken hv hkey => exact Or.inr ⟨hv, Or.inl ⟨hkey, rfl⟩⟩
    | overflow hv hkey hover => exact Or.inr ⟨hv, Or.inr ⟨hkey, hover, rfl⟩⟩
  · intro hf
    rcases hf with ⟨hv, rfl⟩ | ⟨hv, ⟨hkey, rfl⟩ | ⟨hkey, hover, rfl⟩⟩
    · exact .zero hv
    · exact .taken hv hkey
    · exact .overflow hv hkey hover

theorem outputsPass_cons {i total : ℕ} {output : TransactionOutput}
    {rest : List TransactionOutput} : OutputsPass E s t i total (output :: rest) ↔
      0 < output.value ∧ outputKey E t i ∉ s.utxoStore ∧
        OutputsPass E s t (i + 1) (total + output.value.val) rest := by
  have hentries : outputEntries E t (output :: rest) i =
      (outputKey E t i, output) :: outputEntries E t rest (i + 1) := rfl
  simp only [OutputsPass, hentries, List.forall_mem_cons, List.map_cons, List.sum_cons,
    outputValue, Nat.add_assoc]
  tauto

/-- The loop over the outputs stops at the first output with a fault; its counter holds out. -/
theorem checkOutputs_eq_error {outputs : List TransactionOutput} {i : U64} {acc : Value}
    {prov : List Bytes} {msg : String} (hlen : i.val + outputs.length < 2 ^ 64) :
    checkOutputs E s t outputs i acc prov = .error msg ↔
      ∃ before output after, outputs = before ++ output :: after ∧
        OutputsPass E s t i.val acc.val before ∧
        OutputFault E s t (i.val + before.length) (acc.val + (before.map outputValue).sum)
          output msg := by
  induction outputs generalizing i acc prov with
  | nil => simp [checkOutputs, pure, Except.pure]
  | cons output rest ih =>
    rw [List.length_cons] at hlen
    obtain ⟨j, hj, hval⟩ := exists_checkedAdd (a := i) (b := 1) (by
      change i.val + 1 < 2 ^ 64
      omega)
    have hval : j.val = i.val + 1 := hval
    rw [exists_split_cons (P := fun before output => OutputsPass E s t i.val acc.val before ∧
      OutputFault E s t (i.val + before.length) (acc.val + (before.map outputValue).sum)
        output msg)]
    have hkey : outputHash E t i = outputKey E t i.val := (outputKey_val E t i).symm
    simp only [checkOutputs, ensure_bind_eq_error, okOr_bind_eq_error, hj, hkey,
      checkedAdd_eq_none, checkedAdd_eq_some, outputsPass_cons, reduceCtorEq, false_and,
      false_or, Option.some.injEq, exists_eq_left', not_not]
    have hnext (b : Value) (prov : List Bytes) := @ih j b prov (by omega)
    have hnil : OutputsPass E s t i.val acc.val [] := ⟨by simp, by simp [outputEntries], by simp⟩
    simp only [hnext, hval, outputFault_iff, hnil, true_and, List.length_nil, List.length_cons,
      List.map_nil, List.map_cons, List.sum_nil, List.sum_cons, outputValue, Nat.add_zero,
      ← Nat.add_assoc, Nat.add_right_comm i.val 1]
    constructor
    · intro h
      rcases h with hv | ⟨hv, hkey | ⟨hkey, hover | ⟨b, hb, before, x, after, hrest, hpass, hfault⟩⟩⟩
      · exact Or.inl (Or.inl hv)
      · exact Or.inl (Or.inr ⟨hv, Or.inl hkey⟩)
      · exact Or.inl (Or.inr ⟨hv, Or.inr ⟨hkey, hover⟩⟩)
      · rw [← hb] at hpass hfault
        exact Or.inr ⟨before, x, after, hrest, ⟨hv, hkey, hpass⟩, hfault⟩
    · intro h
      rcases h with (hv | ⟨hv, hkey | ⟨hkey, hover⟩⟩) |
        ⟨before, x, after, hrest, ⟨hv, hkey, hpass⟩, hfault⟩
      · exact Or.inl hv
      · exact Or.inr ⟨hv, Or.inl hkey⟩
      · exact Or.inr ⟨hv, Or.inr ⟨hkey, Or.inl hover⟩⟩
      · have hlt : acc.val + output.value.val < 2 ^ 128 :=
          (Nat.le_add_right _ _).trans_lt hpass.2.2
        exact Or.inr ⟨hv, Or.inr ⟨hkey, Or.inr
          ⟨⟨_, hlt⟩, rfl, before, x, after, hrest, hpass, hfault⟩⟩⟩

theorem checkBalance_eq_error {req : List Bytes} {totalIn totalOut : Value} {msg : String} :
    checkBalance req totalIn totalOut = .error msg ↔ req = [] ∧ totalIn.val < totalOut.val ∧
      "output value must not exceed input value" = msg := by
  unfold checkBalance
  split_ifs with h
  · rw [ensure_bind_eq_error, ← bind_pure (okOr _ _), okOr_bind_eq_error]
    constructor
    · intro hb
      rcases hb with ⟨hlt, rfl⟩ | ⟨hle, ⟨hnone, -⟩ | ⟨b, -, hb⟩⟩
      · exact ⟨h, not_le.mp hlt, rfl⟩
      · rw [checkedSub, if_pos (Fin.le_def.mp hle)] at hnone
        cases hnone
      · cases hb
    · intro hb
      rcases hb with ⟨-, hlt, rfl⟩
      exact Or.inl ⟨not_le.mpr hlt, rfl⟩
  · constructor
    · intro hb
      cases hb
    · intro hb
      exact absurd hb.1 h

/-- The checks on the shape of a transaction, before any value is looked at. -/
structure WellFormed (t : Transaction) : Prop where
  inputs_nonempty : t.inputs.toList ≠ []
  outputs_nonempty : t.outputs.toList ≠ []
  inputs_distinct : t.inputs.toList.Nodup
  outputs_distinct : t.outputs.toList.Nodup

/-- The first check that fails, with the checks that it comes after. -/
inductive Rejected (E : Env N) (s : State N) (t : Transaction) : String → Prop where
  | noInputs (hin : t.inputs.toList = []) : Rejected E s t "no inputs"
  | noOutputs (hin : t.inputs.toList ≠ []) (hout : t.outputs.toList = []) :
      Rejected E s t "no outputs"
  | inputTwice (hin : t.inputs.toList ≠ []) (hout : t.outputs.toList ≠ [])
      (hdup : ¬ t.inputs.toList.Nodup) : Rejected E s t "each input must only be used once"
  | outputTwice (hin : t.inputs.toList ≠ []) (hout : t.outputs.toList ≠ [])
      (hn : t.inputs.toList.Nodup) (hdup : ¬ t.outputs.toList.Nodup) :
      Rejected E s t "each output must be defined only once"
  | input {before input after msg} (hw : WellFormed t)
      (hsplit : t.inputs.toList = before ++ input :: after)
      (hpass : InputsPass E s (getSimpleTransaction t) 0 before)
      (hfault : InputFault E s (getSimpleTransaction t) (before.map (inputValue s)).sum input msg) :
      Rejected E s t msg
  | output {before output after msg} (hw : WellFormed t)
      (hinputs : InputsPass E s (getSimpleTransaction t) 0 t.inputs.toList)
      (hsplit : t.outputs.toList = before ++ output :: after)
      (hpass : OutputsPass E s t 0 0 before)
      (hfault : OutputFault E s t before.length (before.map outputValue).sum output msg) :
      Rejected E s t msg
  | unbalanced (hw : WellFormed t)
      (hinputs : InputsPass E s (getSimpleTransaction t) 0 t.inputs.toList)
      (houtputs : OutputsPass E s t 0 0 t.outputs.toList) (hpresent : getMissingUtxos s t = [])
      (hlt : inputTotal s t < outputTotal t) :
      Rejected E s t "output value must not exceed input value"

/-- The message of a rejection names the first check that fails. -/
theorem validateTransaction_eq_error {msg : String} :
    validateTransaction E s t = .error msg ↔ Rejected E s t msg := by
  have hlen : (0 : U64).val + t.outputs.toList.length < 2 ^ 64 := by
    have hsize := t.outputs.size
    simp only [Fin.val_zero, Nat.zero_add]
    omega
  have hreq := missing_eq s t
  simp only [validateTransaction, ensure_bind_eq_error, dedup_length_iff, not_not]
  simp only [bind_eq_error, checkInputs_eq_error, checkOutputs_eq_error hlen,
    checkBalance_eq_error, Fin.val_zero, Nat.zero_add, Prod.exists, checkInputs_eq_ok,
    checkOutputs_eq_ok, hreq]
  constructor
  · intro h
    rcases h with ⟨hin, rfl⟩ | ⟨hin, ⟨hout, rfl⟩ | ⟨hout, ⟨hdup, rfl⟩ | ⟨hn, ⟨hdup, rfl⟩ | ⟨hno, h⟩⟩⟩⟩
    · exact .noInputs hin
    · exact .noOutputs hin hout
    · exact .inputTwice hin hout hdup
    · exact .outputTwice hin hout hn hdup
    · have hw : WellFormed t := ⟨hin, hout, hn, hno⟩
      rcases h with ⟨before, input, after, hsplit, hpass, hfault⟩ |
        ⟨totalIn, req, ⟨hsig, hsum, rfl⟩, h⟩
      · exact .input hw hsplit hpass hfault
      · have hinputs : InputsPass E s (getSimpleTransaction t) 0 t.inputs.toList :=
          ⟨hsig, by rw [Nat.zero_add, hsum]; exact totalIn.isLt⟩
        rcases h with ⟨before, output, after, hsplit, hpass, hfault⟩ |
          ⟨totalOut, prov, ⟨hpos, -, hkeys, hsumOut, rfl⟩, h⟩
        · exact .output hw hinputs hsplit hpass hfault
        · have houtputs : OutputsPass E s t 0 0 t.outputs.toList :=
            ⟨hpos, hkeys, by rw [Nat.zero_add, hsumOut]; exact totalOut.isLt⟩
          rcases h with ⟨hpresent, hlt, rfl⟩ | ⟨reward, -, h⟩
          · have hbalance : inputTotal s t < outputTotal t := by
              rw [inputTotal, outputTotal, hsum, hsumOut]
              exact hlt
            exact .unbalanced hw hinputs houtputs (List.map_eq_nil_iff.mp hpresent) hbalance
          · cases h
  · intro h
    cases h with
    | noInputs hin => exact Or.inl ⟨hin, rfl⟩
    | noOutputs hin hout => exact Or.inr ⟨hin, Or.inl ⟨hout, rfl⟩⟩
    | inputTwice hin hout hdup => exact Or.inr ⟨hin, Or.inr ⟨hout, Or.inl ⟨hdup, rfl⟩⟩⟩
    | outputTwice hin hout hn hdup =>
      exact Or.inr ⟨hin, Or.inr ⟨hout, Or.inr ⟨hn, Or.inl ⟨hdup, rfl⟩⟩⟩⟩
    | input hw hsplit hpass hfault =>
      exact Or.inr ⟨hw.inputs_nonempty, Or.inr ⟨hw.outputs_nonempty, Or.inr ⟨hw.inputs_distinct,
        Or.inr ⟨hw.outputs_distinct, Or.inl ⟨_, _, _, hsplit, hpass, hfault⟩⟩⟩⟩⟩
    | output hw hinputs hsplit hpass hfault =>
      have hfit := hinputs.2
      rw [Nat.zero_add] at hfit
      exact Or.inr ⟨hw.inputs_nonempty, Or.inr ⟨hw.outputs_nonempty, Or.inr ⟨hw.inputs_distinct,
        Or.inr ⟨hw.outputs_distinct, Or.inr ⟨⟨_, hfit⟩, _, ⟨hinputs.1, rfl, rfl⟩,
          Or.inl ⟨_, _, _, hsplit, hpass, hfault⟩⟩⟩⟩⟩⟩
    | unbalanced hw hinputs houtputs hpresent hlt =>
      have hfit := hinputs.2
      have hfitOut := houtputs.2.2
      have hlen64 : t.outputs.toList.length < 2 ^ 64 := by
        rwa [Fin.val_zero, Nat.zero_add] at hlen
      rw [Nat.zero_add] at hfit hfitOut
      exact Or.inr ⟨hw.inputs_nonempty, Or.inr ⟨hw.outputs_nonempty, Or.inr ⟨hw.inputs_distinct,
        Or.inr ⟨hw.outputs_distinct, Or.inr ⟨⟨_, hfit⟩, _, ⟨hinputs.1, rfl, rfl⟩,
          Or.inr ⟨⟨_, hfitOut⟩, _, ⟨houtputs.1, hlen64, houtputs.2.1, rfl, rfl⟩,
            Or.inl ⟨List.map_eq_nil_iff.mpr hpresent, hlt, rfl⟩⟩⟩⟩⟩⟩⟩

/-- The messages of the checks that can fail. -/
def messages : List String :=
  ["no inputs", "no outputs", "each input must only be used once",
    "each output must be defined only once", "signature must be valid", "input value overflow",
    "output value must be nonzero", "output already exists", "output value overflow",
    "output value must not exceed input value"]

theorem Rejected.message {msg : String} (h : Rejected E s t msg) : msg ∈ messages := by
  cases h with
  | input hw hsplit hpass hfault => cases hfault <;> simp [messages]
  | output hw hinputs hsplit hpass hfault => cases hfault <;> simp [messages]
  | noInputs hin => simp [messages]
  | noOutputs hin hout => simp [messages]
  | inputTwice hin hout hdup => simp [messages]
  | outputTwice hin hout hn hdup => simp [messages]
  | unbalanced hw hinputs houtputs hpresent hlt => simp [messages]

/-- An overflow of the inputs is one of inputs whose signatures are all valid. -/
theorem Rejected.inputs_overflow {msg : String} (h : Rejected E s t msg)
    (hmsg : msg = "input value overflow") : ∃ verified, verified <+: t.inputs.toList ∧
      WellFormed t ∧ SignaturesValid E s (getSimpleTransaction t) verified ∧
      2 ^ 128 ≤ (verified.map (inputValue s)).sum := by
  cases h with
  | noInputs hin => exact absurd hmsg (by decide)
  | noOutputs hin hout => exact absurd hmsg (by decide)
  | inputTwice hin hout hdup => exact absurd hmsg (by decide)
  | outputTwice hin hout hn hdup => exact absurd hmsg (by decide)
  | unbalanced hw hinputs houtputs hpresent hlt => exact absurd hmsg (by decide)
  | output hw hinputs hsplit hpass hfault =>
    cases hfault with
    | zero hv => exact absurd hmsg (by decide)
    | taken hv hkey => exact absurd hmsg (by decide)
    | overflow hv hkey hover => exact absurd hmsg (by decide)
  | @input before input after msg hw hsplit hpass hfault =>
    cases hfault with
    | signature hu hsig => exact absurd hmsg (by decide)
    | overflow hu hsig hover =>
      refine ⟨before ++ [input], ⟨after, by simp [hsplit]⟩, hw, ?_, ?_⟩
      · intro i hi utxo' hu'
        rcases List.mem_append.mp hi with hi | hi
        · exact hpass.1 i hi utxo' hu'
        · obtain rfl := List.mem_singleton.mp hi
          cases hu.symm.trans hu'
          exact hsig
      · simpa [inputValue_some hu] using hover

/-- Why a spend fails. -/
inductive SpendFails (E : Env N) (s : State N) (t : Transaction) : DispatchError → Prop where
  | rejected {msg} (h : Rejected E s t msg) : SpendFails E s t (.other msg)
  | missing (hv : Valid E s t) (hm : getMissingUtxos s t ≠ []) :
      SpendFails E s t (.other "missing inputs")
  | overflow (hs : Spendable E s t) (hover : 2 ^ 128 ≤ s.rewardTotal.val + (credit s t).val) :
      SpendFails E s t (.other "Reward overflow")

theorem spend_eq_error {o : Origin} {e : DispatchError} {s' : State N} :
    (spend E o t).run s = .error e s' ↔ SpendFails E s t e ∧ s' = s := by
  rw [spend_run]
  cases hv : validateTransaction E s t with
  | error msg =>
    have hr := validateTransaction_eq_error.mp hv
    constructor
    · intro h
      cases h
      exact ⟨.rejected hr, rfl⟩
    · intro h
      rcases h with ⟨hf, rfl⟩
      cases hf with
      | rejected hr' =>
        cases hv.symm.trans (validateTransaction_eq_error.mpr hr')
        rfl
      | missing hvalid hm =>
        have hok := validateTransaction_eq_ok.mpr ⟨hvalid, by have := t.outputs.size; omega, rfl⟩
        cases hv.symm.trans hok
      | overflow hs hover =>
        obtain ⟨v, hok, -⟩ := spendable_iff.mp hs
        cases hv.symm.trans hok
  | ok v =>
    obtain ⟨hvalid, -, rfl⟩ := validateTransaction_eq_ok.mp hv
    have hnot : ∀ msg, ¬ Rejected E s t msg := by
      intro msg hr
      cases hv.symm.trans (validateTransaction_eq_error.mpr hr)
    have hreq : (validTransaction E s t).requires = [] ↔ getMissingUtxos s t = [] :=
      List.map_eq_nil_iff
    have hcredit : cast 128 (validTransaction E s t).priority = credit s t := rfl
    simp only [hreq, hcredit]
    by_cases hm : getMissingUtxos s t = []
    · have hs : Spendable E s t := ⟨hvalid, getMissingUtxos_eq_nil.mp hm⟩
      rw [if_pos hm]
      cases hadd : checkedAdd s.rewardTotal (credit s t) with
      | some total =>
        have hsum := checkedAdd_eq_some.mp hadd
        have hlt := total.isLt
        refine ⟨nofun, fun h => ?_⟩
        rcases h with ⟨hf, -⟩
        cases hf with
        | rejected hr => exact absurd hr (hnot _)
        | missing _ hm' => exact absurd hm hm'
        | overflow _ hover => omega
      | none =>
        have hover := checkedAdd_eq_none.mp hadd
        constructor
        · intro h
          cases h
          exact ⟨.overflow hs hover, rfl⟩
        · intro h
          rcases h with ⟨hf, rfl⟩
          cases hf with
          | rejected hr => exact absurd hr (hnot _)
          | missing _ hm' => exact absurd hm hm'
          | overflow _ _ => rfl
    · rw [if_neg hm]
      constructor
      · intro h
        cases h
        exact ⟨.missing hvalid hm, rfl⟩
      · intro h
        rcases h with ⟨hf, rfl⟩
        cases hf with
        | rejected hr => exact absurd hr (hnot _)
        | missing _ _ => rfl
        | overflow hs _ => exact absurd (getMissingUtxos_eq_nil.mpr hs.present) hm

/-- Every error of validation and of a spend names the first thing that is wrong, and the
overflow of the output counter and the underflow of the reward are never among them. -/
theorem rejections_exact (E : Env N) (s : State N) (o : Origin) (t : Transaction) :
    (∀ msg, validateTransaction E s t = .error msg ↔ Rejected E s t msg) ∧
    (∀ e s', (spend E o t).run s = .error e s' ↔ SpendFails E s t e ∧ s' = s) ∧
    ∀ e s', (spend E o t).run s = .error e s' →
      e ≠ .other "output index overflow" ∧ e ≠ .other "reward underflow" := by
  refine ⟨fun msg => validateTransaction_eq_error, fun e s' => spend_eq_error, ?_⟩
  intro e s' h
  cases (spend_eq_error.mp h).1 with
  | rejected hr =>
    have hmem := hr.message
    constructor
    · rintro ⟨⟩
      exact absurd hmem (by decide)
    · rintro ⟨⟩
      exact absurd hmem (by decide)
  | missing hv hm => exact ⟨by decide, by decide⟩
  | overflow hs hover => exact ⟨by decide, by decide⟩

end UtxoRejection
