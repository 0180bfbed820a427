import Origel.Extrautils.Calc
import Mathlib.Algebra.Group.Int.Defs

/-! The grammar of the calculator, and that its parser reads it. -/
namespace Origel.Calc

variable {α : Type*} {x : Arithmetic α}

/-- The text of a number -/
structure Numeral (x : Arithmetic α) where
  text : List Char
  value : α
  parsed : x.parse text = some value

mutual

/-- E -> T ((+|-) T)* -/
inductive E (x : Arithmetic α) where
  | mk (t : T x) (tail : ETail x)

inductive ETail (x : Arithmetic α) where
  | nil
  | plus (t : T x) (tail : ETail x)
  | minus (t : T x) (tail : ETail x)

/-- T -> F ((*|/) F)* -/
inductive T (x : Arithmetic α) where
  | mk (f : F x) (tail : TTail x)

inductive TTail (x : Arithmetic α) where
  | nil
  | times (f : F x) (tail : TTail x)
  | dividedBy (f : F x) (tail : TTail x)

/-- F -> G (^ F)? -/
inductive F (x : Arithmetic α) where
  | base (g : G x)
  | power (g : G x) (f : F x)

/-- G -> number | - number | ( E ) -/
inductive G (x : Arithmetic α) where
  | number (n : Numeral x)
  | negative (n : Numeral x)
  | group (e : E x)

end

mutual

def E.tokens : E x → List Token
  | .mk t tail => t.tokens ++ tail.tokens

def ETail.tokens : ETail x → List Token
  | .nil => []
  | .plus t tail => .Plus :: (t.tokens ++ tail.tokens)
  | .minus t tail => .Minus :: (t.tokens ++ tail.tokens)

def T.tokens : T x → List Token
  | .mk f tail => f.tokens ++ tail.tokens

def TTail.tokens : TTail x → List Token
  | .nil => []
  | .times f tail => .Multiply :: (f.tokens ++ tail.tokens)
  | .dividedBy f tail => .Divide :: (f.tokens ++ tail.tokens)

def F.tokens : F x → List Token
  | .base g => g.tokens
  | .power g f => g.tokens ++ .Exponent :: f.tokens

def G.tokens : G x → List Token
  | .number n => [.Number n.text]
  | .negative n => [.Minus, .Number n.text]
  | .group e => .OpenParen :: (e.tokens ++ [.CloseParen])

end

mutual

/-- The value of an expression; none where a division is by zero -/
def E.value : E x → Option α
  | .mk t tail => t.value.bind fun v => tail.value v

/-- The value of a tail behind `left`, from the left -/
def ETail.value : ETail x → α → Option α
  | .nil, left => some left
  | .plus t tail, left => t.value.bind fun v => tail.value (x.add left v)
  | .minus t tail, left => t.value.bind fun v => tail.value (x.sub left v)

def T.value : T x → Option α
  | .mk f tail => f.value.bind fun v => tail.value v

def TTail.value : TTail x → α → Option α
  | .nil, left => some left
  | .times f tail, left => f.value.bind fun v => tail.value (x.mul left v)
  | .dividedBy f tail, left =>
    f.value.bind fun v => if x.isZero v then none else tail.value (x.div left v)

def F.value : F x → Option α
  | .base g => g.value
  | .power g f => g.value.bind fun v => f.value.bind fun w => some (x.powf v w)

def G.value : G x → Option α
  | .number n => some n.value
  | .negative n => some (x.mul x.minusOne n.value)
  | .group e => e.value

end

/-- The token ends an F. -/
def EndsF : Token → Prop
  | .Exponent | .Number _ => False
  | _ => True

/-- The token ends a T. -/
def EndsT : Token → Prop
  | .Multiply | .Divide => False
  | token => EndsF token

/-- The token ends an E. -/
def EndsE : Token → Prop
  | .Plus | .Minus => False
  | token => EndsT token

/-- What follows does not go on with an expression. -/
def Stops (ends : Token → Prop) (rest : List Token) : Prop := ∀ token ∈ rest.head?, ends token

/-- What a parser gives for an expression of this value and length. -/
def result (value : Option α) (length : Nat) : Parsed α :=
  match value with
  | none => some (.error divideByZero)
  | some v => some (.ok ⟨v, length⟩)

section Loops

variable {ts rest : List Token} {token : Token} {i : Nat} {v : α}

theorem sliceFrom_eq (h : i ≤ ts.length) : sliceFrom ts i = some ⟨ts.drop i, List.length_drop⟩ :=
  if_pos h

theorem drop_cons (h : ts.drop i = token :: rest) :
    i < ts.length ∧ ts[i]? = some token ∧ ts.drop (i + 1) = rest := by
  refine ⟨?_, ?_, ?_⟩
  · have hlength := congrArg List.length h
    rw [List.length_drop, List.length_cons] at hlength
    omega
  · rw [← List.head?_drop, h, List.head?_cons]
  · rw [← List.tail_drop, h, List.tail_cons]

theorem eLoop_nil (h : ts.drop i = []) : eLoop x ts ⟨v, i⟩ = some (.ok ⟨v, i⟩) := by
  rw [eLoop, dif_neg (Nat.not_lt.mpr (List.drop_eq_nil_iff.mp h))]

theorem tLoop_nil (h : ts.drop i = []) : tLoop x ts ⟨v, i⟩ = some (.ok ⟨v, i⟩) := by
  rw [tLoop, dif_neg (Nat.not_lt.mpr (List.drop_eq_nil_iff.mp h))]

theorem fLoop_nil (h : ts.drop i = []) : fLoop x ts ⟨v, i⟩ = some (.ok ⟨v, i⟩) := by
  rw [fLoop, dif_neg (Nat.not_lt.mpr (List.drop_eq_nil_iff.mp h))]

/-- A round of the loop of `e_expr`. -/
theorem eLoop_cons (h : ts.drop i = token :: rest) :
    eLoop x ts ⟨v, i⟩ =
      match token with
      | .Plus => (tExpr x rest).bind fun t2 => eLoop x ts ⟨x.add v t2.value, i + (t2.tokensRead + 1)⟩
      | .Minus => (tExpr x rest).bind fun t2 => eLoop x ts ⟨x.sub v t2.value, i + (t2.tokensRead + 1)⟩
      | .Number n => some (.error (.UnexpectedToken (String.ofList n) "operator"))
      | _ => some (.ok ⟨v, i⟩) := by
  obtain ⟨hlt, hget, hdrop⟩ := drop_cons h
  rw [eLoop, dif_pos hlt]
  cases token <;> simp only [hget, sliceFrom_eq hlt, hdrop]

theorem tLoop_cons (h : ts.drop i = token :: rest) :
    tLoop x ts ⟨v, i⟩ =
      match token with
      | .Multiply => (fExpr x rest).bind fun f2 => tLoop x ts ⟨x.mul v f2.value, i + (f2.tokensRead + 1)⟩
      | .Divide => (fExpr x rest).bind fun f2 =>
        if x.isZero f2.value then some (.error divideByZero)
        else tLoop x ts ⟨x.div v f2.value, i + (f2.tokensRead + 1)⟩
      | .Number n => some (.error (.UnexpectedToken (String.ofList n) "operator"))
      | _ => some (.ok ⟨v, i⟩) := by
  obtain ⟨hlt, hget, hdrop⟩ := drop_cons h
  rw [tLoop, dif_pos hlt]
  cases token <;> simp only [hget, sliceFrom_eq hlt, hdrop]

theorem fLoop_cons (h : ts.drop i = token :: rest) :
    fLoop x ts ⟨v, i⟩ =
      match token with
      | .Exponent => (fExpr x rest).bind fun f => fLoop x ts ⟨x.powf v f.value, i + (f.tokensRead + 1)⟩
      | .Number n => some (.error (.UnexpectedToken (String.ofList n) "operator"))
      | _ => some (.ok ⟨v, i⟩) := by
  obtain ⟨hlt, hget, hdrop⟩ := drop_cons h
  rw [fLoop, dif_pos hlt]
  cases token <;> simp only [hget, sliceFrom_eq hlt, hdrop]

theorem Stops.toF (h : Stops EndsT rest) : Stops EndsF rest := by
  intro token htoken
  have hend := h token htoken
  cases token <;> simp_all [EndsT]

theorem Stops.toT (h : Stops EndsE rest) : Stops EndsT rest := by
  intro token htoken
  have hend := h token htoken
  cases token <;> simp_all [EndsE]

theorem fLoop_stops (hdrop : ts.drop i = rest) (h : Stops EndsF rest) :
    fLoop x ts ⟨v, i⟩ = some (.ok ⟨v, i⟩) := by
  cases rest with
  | nil => exact fLoop_nil hdrop
  | cons token rest =>
    have hend := h token rfl
    rw [fLoop_cons hdrop]
    cases token <;> first | rfl | exact hend.elim

theorem tLoop_stops (hdrop : ts.drop i = rest) (h : Stops EndsT rest) :
    tLoop x ts ⟨v, i⟩ = some (.ok ⟨v, i⟩) := by
  cases rest with
  | nil => exact tLoop_nil hdrop
  | cons token rest =>
    have hend := h token rfl
    rw [tLoop_cons hdrop]
    cases token <;> first | rfl | exact hend.elim

theorem eLoop_stops (hdrop : ts.drop i = rest) (h : Stops EndsE rest) :
    eLoop x ts ⟨v, i⟩ = some (.ok ⟨v, i⟩) := by
  cases rest with
  | nil => exact eLoop_nil hdrop
  | cons token rest =>
    have hend := h token rfl
    rw [eLoop_cons hdrop]
    cases token <;> first | rfl | exact hend.elim

theorem ETail.stops (tail : ETail x) (h : Stops EndsE rest) : Stops EndsT (tail.tokens ++ rest) := by
  cases tail with
  | nil => exact h.toT
  | plus t tail =>
    rintro token ⟨⟩
    trivial
  | minus t tail =>
    rintro token ⟨⟩
    trivial

theorem TTail.stops (tail : TTail x) (h : Stops EndsT rest) : Stops EndsF (tail.tokens ++ rest) := by
  cases tail with
  | nil => exact h.toF
  | times f tail =>
    rintro token ⟨⟩
    trivial
  | dividedBy f tail =>
    rintro token ⟨⟩
    trivial

/-- What is read in two parts has the value of both. -/
theorem result_bind {p : Parsed α} {k : IntermediateResult α → Parsed α} {o : Option α}
    {value : α → Option α} {n length : Nat} (hp : p = result o n)
    (hk : ∀ w, k ⟨w, n⟩ = result (value w) length) : p.bind k = result (o.bind value) length := by
  subst hp
  cases o with
  | none => rfl
  | some w => exact hk w

end Loops

mutual

/-- An expression is read to its end, where what follows does not go on with it. -/
theorem E.parsed (e : E x) (rest : List Token) (h : Stops EndsE rest) :
    eExpr x (e.tokens ++ rest) = result e.value e.tokens.length := by
  obtain ⟨t, tail⟩ := e
  rw [E.tokens, E.value, List.append_assoc, eExpr, List.length_append]
  exact result_bind (t.parsed (tail.tokens ++ rest) (tail.stops h)) fun v =>
    tail.parsed t.tokens rest v h

theorem ETail.parsed (tail : ETail x) (pre rest : List Token) (v : α) (h : Stops EndsE rest) :
    eLoop x (pre ++ (tail.tokens ++ rest)) ⟨v, pre.length⟩ =
      result (tail.value v) (pre.length + tail.tokens.length) := by
  cases tail with
  | nil => exact eLoop_stops List.drop_left h
  | plus t tail =>
    have hdrop : (pre ++ (.Plus :: (t.tokens ++ tail.tokens) ++ rest)).drop pre.length =
        .Plus :: (t.tokens ++ (tail.tokens ++ rest)) := by simp
    rw [ETail.tokens, ETail.value, eLoop_cons hdrop]
    refine result_bind (t.parsed (tail.tokens ++ rest) (tail.stops h)) fun w => ?_
    have hnext := tail.parsed (pre ++ .Plus :: t.tokens) rest (x.add v w) h
    simpa [Nat.add_assoc, Nat.add_comm, Nat.add_left_comm] using hnext
  | minus t tail =>
    have hdrop : (pre ++ (.Minus :: (t.tokens ++ tail.tokens) ++ rest)).drop pre.length =
        .Minus :: (t.tokens ++ (tail.tokens ++ rest)) := by simp
    rw [ETail.tokens, ETail.value, eLoop_cons hdrop]
    refine result_bind (t.parsed (tail.tokens ++ rest) (tail.stops h)) fun w => ?_
    have hnext := tail.parsed (pre ++ .Minus :: t.tokens) rest (x.sub v w) h
    simpa [Nat.add_assoc, Nat.add_comm, Nat.add_left_comm] using hnext

theorem T.parsed (t : T x) (rest : List Token) (h : Stops EndsT rest) :
    tExpr x (t.tokens ++ rest) = result t.value t.tokens.length := by
  obtain ⟨f, tail⟩ := t
  rw [T.tokens, T.value, List.append_assoc, tExpr, List.length_append]
  exact result_bind (f.parsed (tail.tokens ++ rest) (tail.stops h)) fun v =>
    tail.parsed f.tokens rest v h

theorem TTail.parsed (tail : TTail x) (pre rest : List Token) (v : α) (h : Stops EndsT rest) :
    tLoop x (pre ++ (tail.tokens ++ rest)) ⟨v, pre.length⟩ =
      result (tail.value v) (pre.length + tail.tokens.length) := by
  cases tail with
  | nil => exact tLoop_stops List.drop_left h
  | times f tail =>
    have hdrop : (pre ++ (.Multiply :: (f.tokens ++ tail.tokens) ++ rest)).drop pre.length =
        .Multiply :: (f.tokens ++ (tail.tokens ++ rest)) := by simp
    rw [TTail.tokens, TTail.value, tLoop_cons hdrop]
    refine result_bind (f.parsed (tail.tokens ++ rest) (tail.stops h)) fun w => ?_
    have hnext := tail.parsed (pre ++ .Multiply :: f.tokens) rest (x.mul v w) h
    simpa [Nat.add_assoc, Nat.add_comm, Nat.add_left_comm] using hnext
  | dividedBy f tail =>
    have hdrop : (pre ++ (.Divide :: (f.tokens ++ tail.tokens) ++ rest)).drop pre.length =
        .Divide :: (f.tokens ++ (tail.tokens ++ rest)) := by simp
    rw [TTail.tokens, TTail.value, tLoop_cons hdrop]
    refine result_bind (f.parsed (tail.tokens ++ rest) (tail.stops h)) fun w => ?_
    cases x.isZero w with
    | true => rfl
    | false =>
      have hnext := tail.parsed (pre ++ .Divide :: f.tokens) rest (x.div v w) h
      simpa [Nat.add_assoc, Nat.add_comm, Nat.add_left_comm] using hnext

theorem F.parsed (f : F x) (rest : List Token) (h : Stops EndsF rest) :
    fExpr x (f.tokens ++ rest) = result f.value f.tokens.length := by
  cases f with
  | base g =>
    rw [F.tokens, F.value, fExpr, ← Option.bind_fun_some g.value]
    exact result_bind (g.parsed rest) fun v => fLoop_stops List.drop_left h
  | power g f =>
    have hdrop : (g.tokens ++ .Exponent :: (f.tokens ++ rest)).drop g.tokens.length =
        .Exponent :: (f.tokens ++ rest) := List.drop_left
    rw [F.tokens, F.value, List.append_assoc, List.cons_append, fExpr]
    refine result_bind (g.parsed _) fun v => ?_
    rw [fLoop_cons hdrop]
    refine result_bind (f.parsed rest h) fun w => ?_
    have hend : (g.tokens ++ .Exponent :: (f.tokens ++ rest)).drop
        (g.tokens.length + (f.tokens.length + 1)) = rest := by
      rw [← List.cons_append, ← List.append_assoc]
      exact List.drop_left' (by simp)
    rw [fLoop_stops hend h, List.length_append, List.length_cons]
    rfl

theorem G.parsed (g : G x) (rest : List Token) :
    gExpr x (g.tokens ++ rest) = result g.value g.tokens.length := by
  cases g with
  | number n =>
    rw [gExpr]
    simp [G.tokens, G.value, parseNumber, n.parsed, result]
  | negative n =>
    rw [gExpr]
    simp [G.tokens, G.value, parseNumber, n.parsed, result]
  | group e =>
    have hparsed := e.parsed (.CloseParen :: rest) (by rintro token ⟨⟩; trivial)
    have hslice : sliceFrom (.OpenParen :: (e.tokens ++ .CloseParen :: rest)) 1 =
        some ⟨e.tokens ++ .CloseParen :: rest, by simp⟩ := sliceFrom_eq (by simp)
    rw [G.tokens, G.value, List.cons_append, List.append_assoc, List.singleton_append, gExpr,
      dif_neg (by simp), ← Option.bind_fun_some e.value]
    simp only [List.getElem?_cons_zero, hslice]
    refine result_bind hparsed fun v => ?_
    have hget : (Token.OpenParen :: (e.tokens ++ .CloseParen :: rest))[e.tokens.length + 1]? =
        some .CloseParen := by simp
    rw [if_pos (by simp)]
    simp only [hget]
    simp [result]

end

/-- A parser does not panic, and `P` holds of what it has read. -/
def Sound (p : Parsed α) (P : α → Nat → Prop) : Prop :=
  match p with
  | none => False
  | some (.error _) => True
  | some (.ok r) => P r.value r.tokensRead

section Soundness

variable {ts rest : List Token} {i : Nat} {v : α} {p : Parsed α} {P Q : α → Nat → Prop}

theorem Sound.bind {k : IntermediateResult α → Parsed α} (h : Sound p P)
    (hk : ∀ v n, P v n → Sound (k ⟨v, n⟩) Q) : Sound (p.bind k) Q := by
  match p with
  | none => exact h.elim
  | some (.error e) => trivial
  | some (.ok r) => exact hk r.value r.tokensRead h

theorem Sound.imp (h : Sound p P) (hPQ : ∀ v n, P v n → Q v n) : Sound p Q := by
  match p with
  | none => exact h.elim
  | some (.error e) => trivial
  | some (.ok r) => exact hPQ r.value r.tokensRead h

theorem Sound.ne_none (h : Sound p P) : p ≠ none := by
  rintro rfl
  exact h

/-- The parser has read an expression, and stopped where it does not go on. -/
def ReadsE (x : Arithmetic α) (ts : List Token) : Prop :=
  Sound (eExpr x ts) fun v n => ∃ (e : E x) (rest : List Token),
    ts = e.tokens ++ rest ∧ e.value = some v ∧ n = e.tokens.length ∧ Stops EndsE rest

def ReadsT (x : Arithmetic α) (ts : List Token) : Prop :=
  Sound (tExpr x ts) fun v n => ∃ (t : T x) (rest : List Token),
    ts = t.tokens ++ rest ∧ t.value = some v ∧ n = t.tokens.length ∧ Stops EndsT rest

def ReadsF (x : Arithmetic α) (ts : List Token) : Prop :=
  Sound (fExpr x ts) fun v n => ∃ (f : F x) (rest : List Token),
    ts = f.tokens ++ rest ∧ f.value = some v ∧ n = f.tokens.length ∧ Stops EndsF rest

def ReadsG (x : Arithmetic α) (ts : List Token) : Prop :=
  Sound (gExpr x ts) fun v n => ∃ (g : G x) (rest : List Token),
    ts = g.tokens ++ rest ∧ g.value = some v ∧ n = g.tokens.length

theorem drop_next {token : Token} {read rest' : List Token} (hdrop : ts.drop i = token :: rest)
    (hrest : rest = read ++ rest') : ts.drop (i + (read.length + 1)) = rest' := by
  rw [← List.drop_drop, hdrop, hrest, List.drop_succ_cons, List.drop_left]

theorem drop_length {token : Token} (hdrop : ts.drop i = token :: rest) : rest.length < ts.length := by
  have hlength := congrArg List.length hdrop
  rw [List.length_drop, List.length_cons] at hlength
  omega

/-- A round of a loop reads an operator and an operand, and then the rest of the tail. -/
theorem round_sound {β γ : Type*} {tokens : β → List Token} {value : β → Option α}
    {tails : γ → List Token} {values : γ → α → Option α} {k : IntermediateResult α → Parsed α}
    {ends ends' : Token → Prop} {token : Token} (mk : β → γ → γ)
    (hmk : ∀ t tail, tails (mk t tail) = token :: (tokens t ++ tails tail))
    (hdrop : ts.drop i = token :: rest)
    (hp : Sound p fun w n => ∃ (t : β) (rest' : List Token),
      rest = tokens t ++ rest' ∧ value t = some w ∧ n = (tokens t).length ∧ Stops ends' rest')
    (hk : ∀ t w j, value t = some w → j = i + ((tokens t).length + 1) → Stops ends' (ts.drop j) →
      Sound (k ⟨w, (tokens t).length⟩) fun u n => ∃ (tail : γ) (rest' : List Token),
        ts.drop j = tails tail ++ rest' ∧ values (mk t tail) v = some u ∧ n = j + (tails tail).length ∧
          Stops ends rest') :
    Sound (p.bind k) fun u n => ∃ (tail : γ) (rest' : List Token),
      token :: rest = tails tail ++ rest' ∧ values tail v = some u ∧ n = i + (tails tail).length ∧
        Stops ends rest' := by
  apply hp.bind
  rintro w n ⟨t, rest', hrest, hvalue, rfl, hstops⟩
  have hnext := drop_next hdrop hrest
  apply (hk t w _ hvalue rfl (by rw [hnext]; exact hstops)).imp
  rintro u n ⟨tail, rest'', htail, hvalue', rfl, hend⟩
  refine ⟨mk t tail, rest'', ?_, hvalue', ?_, hend⟩
  · rw [hrest, ← hnext, htail, hmk, List.cons_append, List.append_assoc]
  · rw [hmk, List.length_cons, List.length_append]
    omega

/-- The loop of `e_expr` reads a tail, from the left. -/
theorem eLoop_sound (hT : ∀ ts' : List Token, ts'.length < ts.length → ReadsT x ts')
    (hstops : Stops EndsT (ts.drop i)) :
    Sound (eLoop x ts ⟨v, i⟩) fun w n => ∃ (tail : ETail x) (rest : List Token),
      ts.drop i = tail.tokens ++ rest ∧ tail.value v = some w ∧ n = i + tail.tokens.length ∧
        Stops EndsE rest := by
  induction hleft : ts.length - i using Nat.strongRecOn generalizing i v with
  | _ left ih =>
    cases hdrop : ts.drop i with
    | nil =>
      rw [eLoop_nil hdrop]
      exact ⟨.nil, [], rfl, rfl, rfl, by rintro token ⟨⟩⟩
    | cons token rest =>
      have hlt := (drop_cons hdrop).1
      have hend := hstops token (by rw [hdrop]; rfl)
      -- the tokens that end an expression leave the tail empty
      have hnil : Stops EndsE (token :: rest) →
          Sound (some (.ok ⟨v, i⟩)) fun w n => ∃ (tail : ETail x) (rest' : List Token),
            token :: rest = tail.tokens ++ rest' ∧ tail.value v = some w ∧
              n = i + tail.tokens.length ∧ Stops EndsE rest' :=
        fun h => ⟨.nil, token :: rest, rfl, rfl, rfl, h⟩
      have hT := hT rest (drop_length hdrop)
      rw [eLoop_cons hdrop]
      cases token with
      | Plus =>
        refine round_sound ETail.plus (fun _ _ => rfl) hdrop hT fun t w j hw hj hstops => ?_
        simp only [ETail.value, hw, Option.bind_some]
        subst hj
        exact ih _ (by omega) hstops rfl
      | Minus =>
        refine round_sound ETail.minus (fun _ _ => rfl) hdrop hT fun t w j hw hj hstops => ?_
        simp only [ETail.value, hw, Option.bind_some]
        subst hj
        exact ih _ (by omega) hstops rfl
      | Exponent => exact hend.elim
      | Multiply => exact hend.elim
      | Divide => exact hend.elim
      | Number n => trivial
      | OpenParen => exact hnil (by rintro token ⟨⟩; trivial)
      | CloseParen => exact hnil (by rintro token ⟨⟩; trivial)

/-- The loop of `t_expr` reads a tail, from the left. -/
theorem tLoop_sound (hF : ∀ ts' : List Token, ts'.length < ts.length → ReadsF x ts')
    (hstops : Stops EndsF (ts.drop i)) :
    Sound (tLoop x ts ⟨v, i⟩) fun w n => ∃ (tail : TTail x) (rest : List Token),
      ts.drop i = tail.tokens ++ rest ∧ tail.value v = some w ∧ n = i + tail.tokens.length ∧
        Stops EndsT rest := by
  induction hleft : ts.length - i using Nat.strongRecOn generalizing i v with
  | _ left ih =>
    cases hdrop : ts.drop i with
    | nil =>
      rw [tLoop_nil hdrop]
      exact ⟨.nil, [], rfl, rfl, rfl, by rintro token ⟨⟩⟩
    | cons token rest =>
      have hlt := (drop_cons hdrop).1
      have hend := hstops token (by rw [hdrop]; rfl)
      -- the tokens that end an expression leave the tail empty
      have hnil : Stops EndsT (token :: rest) →
          Sound (some (.ok ⟨v, i⟩)) fun w n => ∃ (tail : TTail x) (rest' : List Token),
            token :: rest = tail.tokens ++ rest' ∧ tail.value v = some w ∧
              n = i + tail.tokens.length ∧ Stops EndsT rest' :=
        fun h => ⟨.nil, token :: rest, rfl, rfl, rfl, h⟩
      have hF := hF rest (drop_length hdrop)
      rw [tLoop_cons hdrop]
      cases token with
      | Multiply =>
        refine round_sound TTail.times (fun _ _ => rfl) hdrop hF fun f w j hw hj hstops => ?_
        simp only [TTail.value, hw, Option.bind_some]
        subst hj
        exact ih _ (by omega) hstops rfl
      | Divide =>
        refine round_sound TTail.dividedBy (fun _ _ => rfl) hdrop hF fun f w j hw hj hstops => ?_
        by_cases hzero : x.isZero w
        · rw [if_pos hzero]
          trivial
        · simp only [TTail.value, hw, Option.bind_some, hzero]
          subst hj
          exact ih _ (by omega) hstops rfl
      | Exponent => exact hend.elim
      | Plus => exact hnil (by rintro token ⟨⟩; trivial)
      | Minus => exact hnil (by rintro token ⟨⟩; trivial)
      | Number n => trivial
      | OpenParen => exact hnil (by rintro token ⟨⟩; trivial)
      | CloseParen => exact hnil (by rintro token ⟨⟩; trivial)

theorem readsG (hE : ∀ ts' : List Token, ts'.length < ts.length → ReadsE x ts') : ReadsG x ts := by
  rw [ReadsG, gExpr]
  cases ts with
  | nil => trivial
  | cons token rest =>
    rw [dif_neg (List.cons_ne_nil token rest), List.getElem?_cons_zero]
    cases token with
    | Number n =>
      simp only [parseNumber]
      cases hn : x.parse n with
      | none => trivial
      | some value => exact ⟨.number ⟨n, value, hn⟩, rest, rfl, rfl, rfl⟩
    | Minus =>
      cases rest with
      | nil => trivial
      | cons second rest =>
        simp only [List.length_cons, Nat.lt_add_left_iff_pos, Nat.zero_lt_succ, if_true,
          List.getElem?_cons_succ, List.getElem?_cons_zero]
        cases second with
        | Number n =>
          simp only [parseNumber]
          cases hn : x.parse n with
          | none => trivial
          | some value => exact ⟨.negative ⟨n, value, hn⟩, rest, rfl, rfl, rfl⟩
        | _ => trivial
    | OpenParen =>
      have hslice : sliceFrom (.OpenParen :: rest) 1 = some ⟨rest, by simp⟩ := sliceFrom_eq (by simp)
      simp only [hslice]
      apply (hE rest (by simp)).bind
      rintro v n ⟨e, rest', hrest, hvalue, rfl, -⟩
      simp only [List.getElem?_cons_succ]
      split
      · rename_i hlt
        cases rest' with
        | nil =>
          rw [hrest, List.append_nil] at hlt
          exact absurd hlt (by simp)
        | cons token rest' =>
          have hget : rest[e.tokens.length]? = some token := by simp [hrest]
          rw [hget]
          cases token with
          | CloseParen =>
            refine ⟨.group e, rest', ?_, hvalue, ?_⟩
            · simp [G.tokens, hrest]
            · simp [G.tokens]
          | _ => trivial
      · trivial
    | _ => trivial

theorem readsF (hG : ReadsG x ts) (hF : ∀ ts' : List Token, ts'.length < ts.length → ReadsF x ts') :
    ReadsF x ts := by
  rw [ReadsF, fExpr]
  apply hG.bind
  rintro v n ⟨g, rest, hts, hvalue, rfl⟩
  have hdrop : ts.drop g.tokens.length = rest := by rw [hts, List.drop_left]
  -- nothing of an F follows
  have hbase : Stops EndsF rest → Sound (some (.ok ⟨v, g.tokens.length⟩)) fun v n =>
      ∃ (f : F x) (rest : List Token),
        ts = f.tokens ++ rest ∧ f.value = some v ∧ n = f.tokens.length ∧ Stops EndsF rest :=
    fun h => ⟨.base g, rest, hts, hvalue, rfl, h⟩
  cases rest with
  | nil =>
    rw [fLoop_nil hdrop]
    exact hbase (by rintro token ⟨⟩)
  | cons token rest =>
    rw [fLoop_cons hdrop]
    cases token with
    | Exponent =>
      apply (hF rest (drop_length hdrop)).bind
      rintro w n ⟨f, rest', hrest, hvalue', rfl, hstops⟩
      rw [fLoop_stops (drop_next hdrop hrest) hstops]
      refine ⟨.power g f, rest', ?_, ?_, ?_, hstops⟩
      · rw [hts, hrest, F.tokens, List.append_assoc, List.cons_append]
      · rw [F.value, hvalue, hvalue']
        rfl
      · rw [F.tokens, List.length_append, List.length_cons]
    | Number n => trivial
    | _ => exact hbase (by rintro token ⟨⟩; trivial)

theorem readsT (hF : ReadsF x ts) (hF' : ∀ ts' : List Token, ts'.length < ts.length → ReadsF x ts') :
    ReadsT x ts := by
  rw [ReadsT, tExpr]
  apply hF.bind
  rintro v n ⟨f, rest, hts, hvalue, rfl, hstops⟩
  have hdrop : ts.drop f.tokens.length = rest := by rw [hts, List.drop_left]
  apply (tLoop_sound hF' (by rw [hdrop]; exact hstops)).imp
  rintro w n ⟨tail, rest', hrest, hvalue', hlength, hend⟩
  rw [hdrop] at hrest
  refine ⟨.mk f tail, rest', ?_, ?_, ?_, hend⟩
  · rw [hts, hrest, T.tokens, List.append_assoc]
  · rw [T.value, hvalue]
    exact hvalue'
  · rw [hlength, T.tokens, List.length_append]

theorem readsE (hT : ReadsT x ts) (hT' : ∀ ts' : List Token, ts'.length < ts.length → ReadsT x ts') :
    ReadsE x ts := by
  rw [ReadsE, eExpr]
  apply hT.bind
  rintro v n ⟨t, rest, hts, hvalue, rfl, hstops⟩
  have hdrop : ts.drop t.tokens.length = rest := by rw [hts, List.drop_left]
  apply (eLoop_sound hT' (by rw [hdrop]; exact hstops)).imp
  rintro w n ⟨tail, rest', hrest, hvalue', hlength, hend⟩
  rw [hdrop] at hrest
  refine ⟨.mk t tail, rest', ?_, ?_, ?_, hend⟩
  · rw [hts, hrest, E.tokens, List.append_assoc]
  · rw [E.value, hvalue]
    exact hvalue'
  · rw [hlength, E.tokens, List.length_append]

/-- The parsers read what the grammar has, by the length of the tokens and from G to E. -/
theorem reads (x : Arithmetic α) (ts : List Token) :
    ReadsG x ts ∧ ReadsF x ts ∧ ReadsT x ts ∧ ReadsE x ts := by
  induction hlength : ts.length using Nat.strongRecOn generalizing ts with
  | _ n ih =>
    subst hlength
    have hshorter := fun (ts' : List Token) (h : ts'.length < ts.length) => ih ts'.length h ts' rfl
    have hG : ReadsG x ts := readsG fun ts' h => (hshorter ts' h).2.2.2
    have hF : ReadsF x ts := readsF hG fun ts' h => (hshorter ts' h).2.1
    have hT : ReadsT x ts := readsT hF fun ts' h => (hshorter ts' h).2.1
    exact ⟨hG, hF, hT, readsE hT fun ts' h => (hshorter ts' h).2.2.1⟩

/-- What a parser has read, there was. -/
theorem Sound.bounded (h : Sound p P) (hP : ∀ v n, P v n → n ≤ ts.length) :
    p ≠ none ∧ ∀ r, p = some (.ok r) → r.tokensRead ≤ ts.length := by
  refine ⟨h.ne_none, ?_⟩
  rintro r rfl
  exact hP r.value r.tokensRead h

end Soundness

/-- The whole list is an expression. -/
def Derivable (x : Arithmetic α) (ts : List Token) : Prop := ∃ e : E x, e.tokens = ts

/-- An expression stands at the beginning, and a parenthesis behind it. -/
def Trailing (x : Arithmetic α) (ts : List Token) : Prop :=
  ∃ (e : E x) (token : Token) (rest : List Token), ts = e.tokens ++ token :: rest ∧
    (token = .OpenParen ∨ token = .CloseParen)

theorem parse_error (ts : List Token) (hderivable : ¬Derivable x ts) (htrailing : ¬Trailing x ts) :
    ∃ error, parse x ts = some (.error error) := by
  have hreads := (reads x ts).2.2.2
  rw [ReadsE] at hreads
  rw [parse]
  match heq : eExpr x ts, hreads with
  | some (.error error), _ => exact ⟨error, rfl⟩
  | some (.ok r), ⟨e, rest, hts, _, _, hstops⟩ =>
    cases rest with
    | nil => exact absurd ⟨e, by rw [hts, List.append_nil]⟩ hderivable
    | cons token rest =>
      have hend := hstops token rfl
      refine absurd ⟨e, token, rest, hts, ?_⟩ htrailing
      cases token <;> first | exact .inl rfl | exact .inr rfl | exact hend.elim

/-- The parser gives every expression its value, unless a division is by zero, and an error for what is
no expression, where no parenthesis stands behind one; none of its parts reads more than there is, or
panics. -/
theorem parse_grammar (x : Arithmetic α) (ts : List Token) :
    (∀ e : E x, e.tokens = ts →
      (∀ v, e.value = some v → parse x ts = some (.ok (x.toText v))) ∧
        (e.value = none → parse x ts = some (.error divideByZero))) ∧
    (¬Derivable x ts → ¬Trailing x ts → ∃ error, parse x ts = some (.error error)) ∧
    ∀ p ∈ [gExpr x ts, fExpr x ts, tExpr x ts, eExpr x ts],
      p ≠ none ∧ ∀ r, p = some (.ok r) → r.tokensRead ≤ ts.length := by
  refine ⟨?_, parse_error ts, ?_⟩
  · rintro e rfl
    have hparsed := e.parsed [] (by rintro token ⟨⟩)
    rw [List.append_nil] at hparsed
    rw [parse, hparsed]
    constructor
    · intro v hv
      rw [hv]
      rfl
    · intro hv
      rw [hv]
      rfl
  · obtain ⟨hG, hF, hT, hE⟩ := reads x ts
    have hlength : ∀ {read rest : List Token} {n : Nat}, ts = read ++ rest → n = read.length →
        n ≤ ts.length := by
      rintro read rest n rfl rfl
      rw [List.length_append]
      exact Nat.le_add_right _ _
    intro p hp
    simp only [List.mem_cons, List.not_mem_nil, or_false] at hp
    rcases hp with rfl | rfl | rfl | rfl
    · exact hG.bounded fun v n ⟨_, _, hts, _, hn⟩ => hlength hts hn
    · exact hF.bounded fun v n ⟨_, _, hts, _, hn, _⟩ => hlength hts hn
    · exact hT.bounded fun v n ⟨_, _, hts, _, hn, _⟩ => hlength hts hn
    · exact hE.bounded fun v n ⟨_, _, hts, _, hn, _⟩ => hlength hts hn

/-- Numbers without a fraction -/
def integers : Arithmetic Int where
  parse text := match text with
    | ['0'] => some 0
    | ['1'] => some 1
    | _ => none
  toText n := (toString n).toList
  add := (· + ·)
  sub := (· - ·)
  mul := (· * ·)
  div := (· / ·)
  powf a b := a ^ b.toNat
  minusOne := -1
  isZero n := n = 0

/-- `1/0` -/
def oneByZero : E integers :=
  .mk (.mk (.base (.number ⟨['1'], 1, rfl⟩)) (.dividedBy (.base (.number ⟨['0'], 0, rfl⟩)) .nil)) .nil

/-- An expression with a division by zero has no value. -/
theorem division_by_zero :
    ¬∀ (x : Arithmetic Int) (ts : List Token),
      (∃ text, parse x ts = some (.ok text)) ↔ Derivable x ts := by
  intro h
  obtain ⟨text, htext⟩ := (h integers oneByZero.tokens).mpr ⟨oneByZero, rfl⟩
  have hparsed := oneByZero.parsed [] (by rintro token ⟨⟩)
  rw [List.append_nil] at hparsed
  have hvalue : oneByZero.value = none := rfl
  rw [parse, hparsed, hvalue] at htext
  cases htext

end Origel.Calc
