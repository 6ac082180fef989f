import Regular.Proofs.Parse.Recognize
import Regular.Proofs.Parse.Scan

/-!
# Parsing is reading a derivation

Put together, the stages of the parser do what the grammar says: a text has a tree precisely
if its tokens spell a phrase, and the tree is the written-out tree of the phrase
(`Expr.parseWithLimit_none_eq_ok_iff`). The same holds without the writing out of repetition
and option, where the tree is the plain one (`Token.toExpr_eq_ok_iff`). A limit on the depth
takes trees away and changes none.

A parse succeeds if each of its stages does (`Expr.parseWithLimit_eq_ok_iff`), and its error
is that of the first stage that fails (`Expr.parseWithLimit_eq_error_iff`).
-/

namespace Regular

variable {ts us : List Token} {e : Expr} {text : String}

namespace Token

/-- The stages behind the scanner. -/
def parse (ts : List Token) : Except SyntaxError Expr := desugar ts >>= toExpr

theorem toExpr_eq_ok_iff (hconcat : .concat ∉ kinds ts) :
    toExpr ts = .ok e ↔ ∃ p : Phrase Atom .union, kinds ts = p.kinds ∧ p.expr = e := by
  constructor
  · intro h
    obtain ⟨p, hp⟩ := exists_phrase_of_toExpr h hconcat
    exact ⟨p, hp, Except.ok.inj ((p.toExpr_eq hp).symm.trans h)⟩
  · rintro ⟨p, hp, rfl⟩
    exact p.toExpr_eq hp

theorem parse_eq_of_phrase (p : Phrase Atom .union) (h : kinds ts = p.kinds) :
    parse ts = .ok p.tree := by
  obtain ⟨us, hus, q, hq, htree⟩ := p.desugar_eq h
  rw [parse, hus, ← htree]
  exact q.toExpr_eq hq

theorem parse_eq_ok_iff (hconcat : .concat ∉ kinds ts) :
    parse ts = .ok e ↔ ∃ p : Phrase Atom .union, kinds ts = p.kinds ∧ p.tree = e := by
  constructor
  · intro h
    obtain ⟨us, hus, htree⟩ := bind_eq_ok_iff.1 h
    obtain ⟨p, hp⟩ := exists_phrase_of_desugar hus htree hconcat
    exact ⟨p, hp, Except.ok.inj ((parse_eq_of_phrase p hp).symm.trans h)⟩
  · rintro ⟨p, hp, rfl⟩
    exact parse_eq_of_phrase p hp

end Token

namespace Expr

/-! ## The stages one after the other -/

/-- The check of the depth, where there is a limit. -/
def checkLimit (limit : Option Nat) (stream : List Token) : Except SyntaxError Unit :=
  match limit with
  | none => .ok ()
  | some n => Postfix.checkDepth n stream

theorem parseWithLimit_eq (limit : Option Nat) (text : String) :
    parseWithLimit limit text =
      Token.scan text >>= fun ts => Token.desugar ts >>= fun us =>
        Postfix.ofTokens (Token.joinOperands us) >>= fun stream =>
          checkLimit limit stream >>= fun _ => Postfix.toExpr stream := by
  rw [parseWithLimit, parseObserved]
  cases Token.scan text with
  | error e => rfl
  | ok ts =>
      simp only [bind, Except.bind]
      cases Token.desugar ts with
      | error e => rfl
      | ok us =>
          simp only
          cases Postfix.ofTokens (Token.joinOperands us) with
          | error e => rfl
          | ok stream => cases limit <;> rfl

/-- The stages up to the stream that is folded into a tree. -/
structure Stages (text : String) (ts us stream : List Token) : Prop where
  scan : Token.scan text = .ok ts
  desugar : Token.desugar ts = .ok us
  reorder : Postfix.ofTokens (Token.joinOperands us) = .ok stream

/-- The stage at which a parse fails. -/
inductive Failure (limit : Option Nat) (text : String) (err : SyntaxError) : Prop
  | scan (h : Token.scan text = .error err)
  | desugar {ts : List Token} (hscan : Token.scan text = .ok ts) (h : Token.desugar ts = .error err)
  | reorder {ts us : List Token} (hscan : Token.scan text = .ok ts)
      (hus : Token.desugar ts = .ok us) (h : Postfix.ofTokens (Token.joinOperands us) = .error err)
  | check {ts us stream : List Token} (stages : Stages text ts us stream)
      (h : checkLimit limit stream = .error err)
  | fold {ts us stream : List Token} (stages : Stages text ts us stream)
      (hcheck : checkLimit limit stream = .ok ()) (h : Postfix.toExpr stream = .error err)

theorem parseWithLimit_eq_error_iff {limit : Option Nat} {err : SyntaxError} :
    parseWithLimit limit text = .error err ↔ Failure limit text err := by
  rw [parseWithLimit_eq]
  constructor
  · intro h
    rcases bind_eq_error_iff.1 h with h | ⟨ts, hscan, h⟩
    · exact .scan h
    rcases bind_eq_error_iff.1 h with h | ⟨us, hus, h⟩
    · exact .desugar hscan h
    rcases bind_eq_error_iff.1 h with h | ⟨stream, hstream, h⟩
    · exact .reorder hscan hus h
    rcases bind_eq_error_iff.1 h with h | ⟨_, hcheck, h⟩
    · exact .check ⟨hscan, hus, hstream⟩ h
    · exact .fold ⟨hscan, hus, hstream⟩ hcheck h
  · intro h
    cases h with
    | scan h => rw [bind_of_error h]
    | desugar hscan h => rw [bind_of_ok hscan, bind_of_error h]
    | reorder hscan hus h => rw [bind_of_ok hscan, bind_of_ok hus, bind_of_error h]
    | check stages h =>
        rw [bind_of_ok stages.scan, bind_of_ok stages.desugar, bind_of_ok stages.reorder,
          bind_of_error h]
    | fold stages hcheck h =>
        rw [bind_of_ok stages.scan, bind_of_ok stages.desugar, bind_of_ok stages.reorder,
          bind_of_ok hcheck, h]

theorem parseWithLimit_eq_ok_iff {limit : Option Nat} :
    parseWithLimit limit text = .ok e ↔ ∃ ts us stream, Stages text ts us stream ∧
      checkLimit limit stream = .ok () ∧ Postfix.toExpr stream = .ok e := by
  simp only [parseWithLimit_eq, bind_eq_ok_iff]
  constructor
  · rintro ⟨ts, hscan, us, hus, stream, hstream, _, hcheck, htree⟩
    exact ⟨ts, us, stream, ⟨hscan, hus, hstream⟩, hcheck, htree⟩
  · rintro ⟨ts, us, stream, ⟨hscan, hus, hstream⟩, hcheck, htree⟩
    exact ⟨ts, hscan, us, hus, stream, hstream, (), hcheck, htree⟩

theorem parseWithLimit_none (text : String) :
    parseWithLimit none text = Token.scan text >>= Token.parse := parseWithLimit_eq none text

/-- A tree that is not too deep is the tree without any limit. -/
theorem parseWithLimit_none_of_ok {limit : Option Nat} (h : parseWithLimit limit text = .ok e) :
    parseWithLimit none text = .ok e := by
  obtain ⟨ts, us, stream, hstages, -, htree⟩ := parseWithLimit_eq_ok_iff.1 h
  exact parseWithLimit_eq_ok_iff.2 ⟨ts, us, stream, hstages, rfl, htree⟩

/-- A text has a tree precisely if its tokens spell a phrase of the grammar, and then it has
the tree of the phrase. -/
theorem parseWithLimit_none_eq_ok_iff :
    parseWithLimit none text = .ok e ↔ ∃ ts, Token.scan text = .ok ts ∧
      ∃ p : Phrase Atom .union, Token.kinds ts = p.kinds ∧ p.tree = e := by
  rw [parseWithLimit_none, bind_eq_ok_iff]
  refine exists_congr fun ts => and_congr_right fun hscan => ?_
  exact Token.parse_eq_ok_iff (Token.concat_notMem_scan hscan)

end Expr

end Regular
