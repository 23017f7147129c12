import RecordCodec.Code.Plan
import RecordCodec.Proofs.Reading

/-! # Marks of fields

Which attributes are accepted on a field, and which of them mark it to be skipped: the attribute
takes the mark any number of times, with commas between and possibly one behind, and nothing else.
-/
namespace RecordCodec.Code

namespace Parse

variable {α β : Type} {s t : ParseState}

theorem bind_eq_ok {x : Parse α} {f : α → Parse β} {b : β} :
    (x >>= f) s = .ok (b,t) ↔ ∃ a u, x s = .ok (a,u) ∧ f a u = .ok (b,t) := by
  change (x s : Except SyntaxError _) >>= (fun p => f p.1 p.2) = _ ↔ _
  rw [Except.bind_eq_ok]
  exact ⟨fun ⟨p,h,hf⟩ => ⟨p.1,p.2,h,hf⟩,fun ⟨a,u,h,hf⟩ => ⟨(a,u),h,hf⟩⟩

theorem bind_of_ok {x : Parse α} (f : α → Parse β) {a : α} (h : x s = .ok (a,t)) :
    (x >>= f) s = f a t := by
  change (x s : Except SyntaxError _) >>= (fun p => f p.1 p.2) = _
  rw [h]
  rfl

theorem optionalOperator_of_behind {c : String} {hd : Token} {tl rest : List Token}
    {u : Option Delimiter} (h : hd.behind? c = some rest) :
    optionalOperator c ⟨hd :: tl,u⟩ = .ok ([.operator c],⟨rest ++ tl,u⟩) := by
  have htokens : tokens ⟨hd :: tl,u⟩ = .ok (hd :: tl,⟨hd :: tl,u⟩) := rfl
  refine (bind_of_ok _ htokens).trans ?_
  dsimp only
  rw [h]
  rfl

theorem optionalOperator_of_none {c : String} {ts : List Token} {u : Option Delimiter}
    (h : ts.head?.bind (·.behind? c) = none) : optionalOperator c ⟨ts,u⟩ = .ok ([],⟨ts,u⟩) := by
  cases ts with
  | nil => rfl
  | cons hd tl =>
    have hb : hd.behind? c = none := h
    have htokens : tokens ⟨hd :: tl,u⟩ = .ok (hd :: tl,⟨hd :: tl,u⟩) := rfl
    refine (bind_of_ok _ htokens).trans ?_
    dsimp only
    rw [hb]
    rfl

theorem operator_eq_ok {c : String} {ts taken : List Token} {u : Option Delimiter}
    (h : operator c ⟨ts,u⟩ = .ok (taken,t)) :
    ∃ hd tl rest, ts = hd :: tl ∧ hd.behind? c = some rest ∧ t = ⟨rest ++ tl,u⟩ := by
  obtain ⟨found,v,hv,h⟩ := bind_eq_ok.mp h
  cases hb : ts.head?.bind (·.behind? c) with
  | none =>
    rw [optionalOperator_of_none hb] at hv
    cases hv
    cases h
  | some rest =>
    cases ts with
    | nil => cases hb
    | cons hd tl =>
      rw [optionalOperator_of_behind hb] at hv
      cases hv
      cases h
      exact ⟨hd,tl,rest,rfl,hb,rfl⟩

theorem takeAll_eq_ok {x : Parse α} {ts : List Token} {a : α} :
    takeAll x ts = .ok a ↔
      ∃ s, x ⟨ts.map Token.detached,none⟩ = .ok (a,s) ∧ s.unfinished = none ∧ s.tokens = [] := by
  have hrun : x.run ⟨ts.map Token.detached,none⟩ = x ⟨ts.map Token.detached,none⟩ := rfl
  unfold takeAll
  rw [hrun]
  cases x ⟨ts.map Token.detached,none⟩ with
  | error e => simp
  | ok p =>
    obtain ⟨a',tokens,unfinished⟩ := p
    cases unfinished <;> cases tokens <;> simp [and_assoc]

end Parse

namespace Token

/-- What an operator leaves behind one that it begins with is an operator, if there is anything. -/
theorem behind?_eq_some {c : String} {t : Token} {rest : List Token} (h : t.behind? c = some rest) :
    t = .operator c ∧ rest = [] ∨ ∃ s, rest = [.operator s] := by
  cases t with
  | operator s =>
    change (if c.toList.isPrefixOf s.toList then some (if (s.toList.drop c.length).isEmpty then []
      else [operator (String.ofList (s.toList.drop c.length))]) else none) = _ at h
    by_cases hp : c.toList.isPrefixOf s.toList
    · rw [if_pos hp] at h
      cases hr : (s.toList.drop c.length).isEmpty with
      | true =>
        have hl : s.toList.length ≤ c.toList.length := by
          have hd := List.drop_eq_nil_iff.mp (List.isEmpty_iff.mp hr)
          rwa [String.length_toList]
        have hs := String.toList_inj.mp ((List.isPrefixOf_iff_prefix.mp hp).eq_of_length_le hl)
        rw [hr, if_pos rfl] at h
        exact .inl ⟨congrArg operator hs.symm,(Option.some.inj h).symm⟩
      | false =>
        rw [hr, if_neg (by decide)] at h
        exact .inr ⟨_,(Option.some.inj h).symm⟩
    · rw [if_neg hp] at h
      cases h
  | _ => cases h

end Token

namespace Skip

/-- The arguments that are accepted. -/
inductive Accepted : List Token → Prop
  | none : Accepted []
  | last : Accepted [.word "skip"]
  | more {ts : List Token} (h : Accepted ts) : Accepted (.word "skip" :: .operator "," :: ts)

open Parse (bind_eq_ok bind_of_ok)

variable {ts : List Token} {s : ParseState} {u : Option Delimiter} {b : Bool} {n : Nat}

theorem argumentPath_eq_ok {path : List String} (h : argumentPath (n + 1) ⟨ts,u⟩ = .ok (path,s)) :
    ∃ w tl, ts = .word w :: tl ∧ (path = [w] ∧ s = ⟨tl,u⟩ ∨
      ∃ more t, path = w :: more ∧ argumentPath n t = .ok (more,s)) := by
  obtain ⟨_,t,ht,h⟩ := bind_eq_ok.mp h
  cases ht
  rcases ts with _ | ⟨hd,tl⟩
  · cases h
  cases hd with
  | word w =>
    refine ⟨w,tl,rfl,?_⟩
    obtain ⟨_,t,ht,h⟩ := bind_eq_ok.mp h
    cases ht
    obtain ⟨found,v,hv,h⟩ := bind_eq_ok.mp h
    cases hb : tl.head?.bind (·.behind? "::") with
    | none =>
      cases (Parse.optionalOperator_of_none hb).symm.trans hv
      cases h
      exact .inl ⟨rfl,rfl⟩
    | some rest =>
      rcases tl with _ | ⟨t,tl⟩
      · cases hb
      cases (Parse.optionalOperator_of_behind hb).symm.trans hv
      obtain ⟨isWord,v,hv,h⟩ := bind_eq_ok.mp h
      cases isWord with
      | false =>
        obtain ⟨_,_,_,h⟩ := bind_eq_ok.mp h
        cases h
      | true =>
        obtain ⟨more,t,ht,h⟩ := bind_eq_ok.mp h
        cases h
        exact .inr ⟨more,v,rfl,ht⟩
  | _ =>
    obtain ⟨_,_,_,h⟩ := bind_eq_ok.mp h
    cases h

theorem argumentPath_single {w : String}
    (h : argumentPath (Token.extentAll ts + 1) ⟨ts,u⟩ = .ok ([w],s)) :
    ∃ tl, ts = .word w :: tl ∧ s = ⟨tl,u⟩ := by
  obtain ⟨v,tl,rfl,⟨hw,rfl⟩ | ⟨more,t,hw,ht⟩⟩ := argumentPath_eq_ok h
  · cases hw
    exact ⟨tl,rfl,rfl⟩
  · cases hw
    have he : Token.extentAll (.word w :: tl) = Token.extentAll tl + 1 := Nat.add_comm ..
    rw [he] at ht
    obtain ⟨_,_,_,⟨hp,-⟩ | ⟨_,_,hp,-⟩⟩ := argumentPath_eq_ok ht <;> cases hp

/-- Arguments are at their end, or begin with the mark and go on behind a comma. -/
theorem arguments_eq_ok (h : arguments (n + 1) ⟨ts,u⟩ = .ok (b,s)) :
    ts = [] ∧ b = false ∧ s = ⟨[],u⟩ ∨
      ∃ tl b' mid, ts = .word "skip" :: tl ∧ b = true ∧ arguments n ⟨mid,u⟩ = .ok (b',s) ∧
        (tl = [] ∧ mid = [] ∨
          ∃ t more rest, tl = t :: more ∧ t.behind? "," = some rest ∧ mid = rest ++ more) := by
  obtain ⟨atEnd,t,ht,h⟩ := bind_eq_ok.mp h
  cases ht
  rcases ts with _ | ⟨hd,tl⟩
  · cases h
    exact .inl ⟨rfl,rfl,rfl⟩
  obtain ⟨root,t,ht,h⟩ := bind_eq_ok.mp h
  obtain ⟨most,t',ht',h⟩ := bind_eq_ok.mp h
  cases ht'
  obtain ⟨path,v,hv,h⟩ := bind_eq_ok.mp h
  by_cases hc : (!root.isEmpty || path != ["skip"]) = true
  · cases (congrFun (if_pos hc) v).symm.trans h
  obtain ⟨hroot,rfl⟩ : root = [] ∧ path = ["skip"] := by simpa using hc
  have h := (congrFun (if_neg hc) v).symm.trans h
  cases hb : (hd :: tl).head?.bind (·.behind? "::") with
  | some rest =>
    cases (Parse.optionalOperator_of_behind hb).symm.trans ht
    cases hroot
  | none =>
    cases (Parse.optionalOperator_of_none hb).symm.trans ht
    obtain ⟨tl,hts,rfl⟩ := argumentPath_single hv
    obtain ⟨rfl,rfl⟩ := List.cons.inj hts
    obtain ⟨_,t,ht,h⟩ := bind_eq_ok.mp h
    cases ht
    refine .inr ⟨tl,?_⟩
    rcases tl with _ | ⟨c,more⟩
    · obtain ⟨b',t,ht,h⟩ := bind_eq_ok.mp h
      cases h
      exact ⟨b',[],rfl,rfl,ht,.inl ⟨rfl,rfl⟩⟩
    · obtain ⟨_,t,ht,h⟩ := bind_eq_ok.mp h
      obtain ⟨_,_,rest,hcons,hcomma,rfl⟩ := Parse.operator_eq_ok ht
      obtain ⟨rfl,rfl⟩ := List.cons.inj hcons
      obtain ⟨b',t,ht,h⟩ := bind_eq_ok.mp h
      cases h
      exact ⟨b',rest ++ more,rfl,rfl,ht,.inr ⟨c,more,rest,rfl,hcomma,rfl⟩⟩

theorem accepted_of_arguments (h : arguments n ⟨ts,u⟩ = .ok (b,s)) (hs : s.tokens = []) :
    Accepted ts ∧ b = !ts.isEmpty ∧ s = ⟨[],u⟩ := by
  induction n generalizing ts b with
  | zero =>
    cases h
    obtain rfl : ts = [] := hs
    exact ⟨.none,rfl,rfl⟩
  | succ n ih =>
    obtain ⟨rfl,rfl,rfl⟩ | ⟨tl,b',mid,rfl,rfl,hm,⟨rfl,rfl⟩ | ⟨t,more,rest,rfl,hcomma,rfl⟩⟩ :=
      arguments_eq_ok h
    · exact ⟨.none,rfl,rfl⟩
    · exact ⟨.last,rfl,(ih hm).2.2⟩
    · obtain ⟨ha,-,hu⟩ := ih hm
      obtain ⟨rfl,rfl⟩ | ⟨c,rfl⟩ := Token.behind?_eq_some hcomma
      · exact ⟨.more ha,rfl,hu⟩
      · cases ha

theorem arguments_nil (n : Nat) : arguments n ⟨[],u⟩ = .ok (false,⟨[],u⟩) := by cases n <;> rfl

theorem arguments_of_accepted (h : Accepted ts) (hn : ts.length < n) :
    arguments n ⟨ts,u⟩ = .ok (!ts.isEmpty,⟨[],u⟩) := by
  induction h generalizing n with
  | none => exact arguments_nil n
  | last =>
    obtain ⟨n,rfl⟩ : ∃ m, n = m + 1 := ⟨n - 1,by omega⟩
    exact Parse.bind_of_ok (fun _ => pure true) (arguments_nil n)
  | more h ih =>
    rw [List.length_cons, List.length_cons] at hn
    obtain ⟨n,rfl⟩ : ∃ m, n = m + 1 := ⟨n - 1,by omega⟩
    exact Parse.bind_of_ok (fun _ => pure true) (ih (by omega))

end Skip

/-- An attribute of the codec has arguments that are accepted; another attribute may be anything. -/
def Attribute.Accepted (a : Attribute) : Prop :=
  a.isNamed Skip.attributeName →
    ∃ d ts, a.tail = .arguments d ts ∧ Skip.Accepted (ts.map Token.detached)

def Attribute.isMark (a : Attribute) : Bool :=
  a.isNamed Skip.attributeName &&
    match a.tail with
    | .arguments _ ts => !ts.isEmpty
    | _ => false

theorem Skip.marks_eq_ok {a : Attribute} {b : Bool} :
    Skip.marks a = .ok b ↔ a.Accepted ∧ b = a.isMark := by
  obtain ⟨rooted,path,tail⟩ := a
  unfold Skip.marks Attribute.Accepted Attribute.isMark
  cases hn : (⟨rooted,path,tail⟩ : Attribute).isNamed Skip.attributeName with
  | false => simp [eq_comm]
  | true =>
    cases tail with
    | none => simp
    | value ts => simp
    | arguments d ts =>
      simp only [if_true, Bool.true_and, true_implies]
      constructor
      · intro h
        obtain ⟨s,hs,-,he⟩ := Parse.takeAll_eq_ok.mp h
        obtain ⟨ha,hb,-⟩ := Skip.accepted_of_arguments hs he
        rw [List.isEmpty_map] at hb
        exact ⟨⟨d,ts,rfl,ha⟩,hb⟩
      · rintro ⟨⟨_,_,ht,ha⟩,rfl⟩
        cases ht
        have hs := Skip.arguments_of_accepted ha (by simp : _ < ts.length + 1) (u := none)
        rw [List.isEmpty_map] at hs
        exact Parse.takeAll_eq_ok.mpr ⟨_,hs,rfl,rfl⟩

end RecordCodec.Code
