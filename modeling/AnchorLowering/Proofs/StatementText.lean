import AnchorLowering.Proofs.BareText
import AnchorLowering.Proofs.FieldAccess
import AnchorLowering.Proofs.LoweredOperation

/-!
# Rules on texts without comments and literals

A rule runs over a whole text, one match after the other. At each place it either takes a match or
leaves one character (`replacedFrom_cases`). A stretch in which it matches nowhere is *quiet* and is
left as it is (`Quiet.replacedFrom_eq`); for a rule that matches only where a name starts, a stretch
without such places is quiet (`OpensName`). A text without a match is left as it is
(`replaceInCode_eq_self`).
-/

namespace AnchorLowering.Lowering

open List Pattern Source

variable {x y : Char} {rule : Pattern Text} {t u v z b p q out : Text}

/-! ## Blanks around a text -/

/-- A text is a part that ends with no blank, and blanks after it. -/
theorem exists_solid (t : Text) :
    ∃ s b, t = s ++ b ∧ Blank b ∧ ∀ x, s.getLast? = some x → isBlank x = false := by
  refine ⟨Text.trimRight t, (t.reverse.takeWhile isBlank).reverse, ?_, ?_, ?_⟩
  · rw [Text.trimRight, ← reverse_append, takeWhile_append_dropWhile, reverse_reverse]
  · intro x hx
    exact mem_takeWhile_imp (mem_reverse.1 hx)
  · intro x hx
    rw [Text.trimRight, getLast?_reverse] at hx
    have := head?_dropWhile_not isBlank t.reverse
    rw [hx] at this
    simpa using this

theorem exists_trim (t : Text) : ∃ b b', t = b ++ (Text.trim t ++ b') ∧ Blank b ∧
    Blank b' ∧ (∀ x, (Text.trim t).head? = some x → isBlank x = false) ∧
      ∀ x, (Text.trim t).getLast? = some x → isBlank x = false := by
  obtain ⟨s, b', hs, hb', hlast⟩ := exists_solid (Text.trimLeft t)
  have htrim : Text.trim t = s := by
    rw [Text.trim, hs, trimRight_append hb' hlast]
  refine ⟨t.takeWhile isBlank, b', ?_, fun x hx => mem_takeWhile_imp hx, hb', ?_, ?_⟩
  · rw [htrim, ← hs, Text.trimLeft, takeWhile_append_dropWhile]
  · intro x hx
    have hhead := head?_dropWhile_not isBlank t
    rw [show t.dropWhile isBlank = s ++ b' from hs, head?_append, ← htrim, hx] at hhead
    simpa using hhead
  · rw [htrim]
    exact hlast

theorem trim_eq_nil (h : Blank t) : Text.trim t = [] := by
  obtain ⟨b, b', ht, -, -, hhead, -⟩ := exists_trim t
  cases hx : Text.trim t with
  | nil => rfl
  | cons x u =>
    have hblank := hhead x (by rw [hx]; rfl)
    rw [h x (by rw [ht, hx]; simp)] at hblank
    cases hblank

theorem trim_trim (t : Text) : Text.trim (Text.trim t) = Text.trim t := by
  obtain ⟨-, -, -, -, -, hhead, hlast⟩ := exists_trim t
  have hnil : ∀ x ∈ ([] : Text), isBlank x = true := fun x hx => absurd hx not_mem_nil
  have := trim_append hnil hnil hhead hlast
  rwa [nil_append, append_nil] at this

/-! ## Where a rule matches -/

/-- The recursion of a replacement: at a match the value is written and the scan goes on after it,
elsewhere one character is kept. -/
theorem replacedFrom_cases (hrule : Bounded rule) (before : Text) (x : Char) (t : Text) :
    (∃ v u rest, x :: t = u ++ rest ∧ u ≠ [] ∧ rule.firstAt ⟨before, u ++ rest⟩ =
      some (v, u.length) ∧
        Way rule before v u rest ∧
        replacedFrom rule before (x :: t) = v ++ replacedFrom rule (u.reverse ++ before) rest) ∨
      replacedFrom rule before (x :: t) = x :: replacedFrom rule (x :: before) t := by
  by_cases hsome : ∃ v n, rule.firstAt ⟨before, x :: t⟩ = some (v, n + 1)
  · obtain ⟨v, n, hv⟩ := hsome
    have hmem : (v, n + 1) ∈ rule ⟨before, x :: t⟩ := mem_of_mem_head? hv
    obtain ⟨u, rest, hsplit, hlen, hway⟩ := (mem_iff_way hrule).1 hmem
    dsimp only at hsplit hway
    refine .inl ⟨v, u, rest, hsplit, ?_, ?_, hway, ?_⟩
    · rintro rfl
      cases hlen
    · rw [← hsplit, ← hlen]
      exact hv
    · rw [replacedFrom_of_some (hrule _ _ hmem).1 hv, hsplit, hlen, take_left, drop_left]
  · simp only [not_exists] at hsome
    exact .inr (replacedFrom_of_not_some hsome)

theorem replacedFrom_of_firstAt {before rest : Text} (hu : u ≠ [])
    (h : rule.firstAt ⟨before, u ++ rest⟩ = some (v, u.length)) :
    replacedFrom rule before (u ++ rest) = v ++ replacedFrom rule (u.reverse ++ before) rest := by
  obtain ⟨x, u, rfl⟩ := exists_cons_of_ne_nil hu
  have hlen : u.length + 1 ≤ (x :: (u ++ rest)).length := by simp
  have htake : (x :: (u ++ rest)).take (u.length + 1) = x :: u := by simp
  have hdrop : (x :: (u ++ rest)).drop (u.length + 1) = rest := by simp
  rw [cons_append, replacedFrom_of_some hlen h, htake, hdrop]

/-- What a rule writes in place of a bare text is bare. -/
def KeepsBare (rule : Pattern Text) : Prop :=
  ∀ ⦃before v u rest⦄, Way rule before v u rest → Bare u → Bare v

theorem KeepsBare.replaceAll (hrule : Bounded rule) (h : KeepsBare rule) (ht : Bare t) :
    Bare (rule.replaceAll t) := by
  have hfrom : ∀ n before t, t.length = n → Bare t → Bare (replacedFrom rule before t) := by
    intro n
    induction n using Nat.strongRecOn with
    | ind n ih =>
      rintro before t rfl ht
      cases t with
      | nil => exact .nil
      | cons x t =>
        rcases replacedFrom_cases hrule before x t with ⟨v, u, rest, hsplit, hne, -, hway,
          heq⟩ | heq
        · rw [hsplit] at ht
          rw [heq]
          refine (h hway ht.left).append (ih rest.length ?_ _ rest rfl ht.right)
          rw [hsplit, length_append]
          have := length_pos_of_ne_nil hne
          omega
        · rw [heq]
          exact .cons (ht x mem_cons_self)
            (ih t.length (Nat.lt_succ_self _) _ t rfl (ht.of_subset fun _ => mem_cons_of_mem x))
  exact hfrom t.length [] t rfl ht

/-! ## Searching a bare text -/

theorem occurs_eq_of_bare {α : Type} {p : Pattern α} (h : Bare t) :
    occurs p t = (matchesFrom p 0 [] t).head?.isSome := by
  rw [occurs, Source.find?, findAll_of_bare h, findAll_eq_matchesFrom]

theorem replacedFrom_eq_self {before : Text} (h : matchesFrom rule 0 before t = []) :
    replacedFrom rule before t = t := by
  induction t generalizing before with
  | nil => rfl
  | cons x t ih =>
    by_cases hsome : ∃ v n, rule.firstAt ⟨before, x :: t⟩ = some (v, n + 1)
    · obtain ⟨v, n, hv⟩ := hsome
      rw [matchesFrom_of_some hv] at h
      cases h
    · simp only [not_exists] at hsome
      rw [matchesFrom_of_not_some hsome] at h
      rw [replacedFrom_of_not_some hsome, ih h]

theorem replaceInCode_eq_self (hbare : Bare t) (h : occurs rule t = false) :
    replaceInCode rule t = t := by
  rw [occurs_eq_of_bare hbare, Option.isSome_eq_false_iff, Option.isNone_iff_eq_none,
    head?_eq_none_iff] at h
  rw [replaceInCode_of_bare hbare]
  exact replacedFrom_eq_self h

/-! ## Quiet texts -/

/-- The rule matches nowhere in the text, with `before` before it, backwards, and `rest` after
it. -/
def Quiet (rule : Pattern Text) (before t rest : Text) : Prop :=
  ∀ v u, t = v ++ u → u ≠ [] → rule ⟨v.reverse ++ before, u ++ rest⟩ = []

namespace Quiet

variable {rule : Pattern Text} {before rest t u : Text}

theorem replacedFrom_eq (h : Quiet rule before t rest) :
    replacedFrom rule before (t ++ rest) = t ++ replacedFrom rule (t.reverse ++ before) rest :=
  replacedFrom_append h

theorem append (ht : Quiet rule before t (u ++ rest))
    (hu : Quiet rule (t.reverse ++ before) u rest) :
    Quiet rule before (t ++ u) rest := by
  intro v w hsplit hw
  rcases append_eq_append_iff.1 hsplit with ⟨k, rfl, hk⟩ | ⟨k, hk, rfl⟩
  · rw [reverse_append, append_assoc]
    exact hu k w hk hw
  · by_cases hnil : k = []
    · subst hnil
      obtain rfl : t = v := by simpa using hk
      exact hu [] u rfl hw
    · rw [append_assoc]
      exact ht v k hk hnil

end Quiet

/-- The rule matches only where a name starts. -/
def OpensName (rule : Pattern Text) : Prop :=
  ∀ ⦃before t⦄, rule ⟨before, t⟩ ≠ [] → before.head?.any isWord = false ∧ t.head?.any isWord = true

namespace OpensName

variable {rule : Pattern Text} {before rest : Text}

/-- A name that the rule does not match at is quiet. -/
theorem quiet_name (h : OpensName rule) {w : Text} (hw : ∀ x ∈ w, isWord x = true)
    (hquiet : rule ⟨before, w ++ rest⟩ = []) : Quiet rule before w rest := by
  intro v u hsplit hu
  rcases eq_nil_or_concat' v with rfl | ⟨v, x, rfl⟩
  · rw [← hsplit.trans (nil_append u)]
    exact hquiet
  · by_contra hne
    have hx := (h hne).1
    rw [reverse_append] at hx
    have hword : isWord x = true := hw x (by rw [hsplit]; simp)
    simp [hword] at hx

/-- Characters that belong to no name are quiet. -/
theorem quiet_marks (h : OpensName rule) {m : Text} (hm : ∀ x ∈ m, isWord x = false) :
    Quiet rule before m rest := by
  intro v u hsplit hu
  by_contra hne
  have hx := (h hne).2
  obtain ⟨x, u, rfl⟩ := exists_cons_of_ne_nil hu
  rw [cons_append, head?_cons, Option.any_some, hm x (by rw [hsplit]; simp)] at hx
  cases hx

end OpensName

end AnchorLowering.Lowering
