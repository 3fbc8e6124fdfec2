import AnchorLowering.Proofs.BoundContext
import AnchorLowering.Proofs.RelaidRecord

/-!
# Types and their texts

A `TypeTree` is a type as it is meant: a primitive type, a string, a name that is not known, or an
array, an option or a sequence of another type. Its text is written token by token, with any number
of spaces around each token (`Spaced`).

Main result: `parse_typeTree`.

Reading looks for the last semicolon of an array and for the first and the last angle bracket of a
wrapper. These are the right ones at every depth: after the semicolon come digits, before the first
angle bracket comes a path, and the brackets of the tree itself stand at the ends of its text.
-/

namespace AnchorLowering

open List Pattern Source Lowering

variable {x : Char} {links : List Text} {size : Nat} {name t : Text}

/-! ## Paths -/

/-- The text of a path: names that a double colon follows, and a last name. -/
def pathText (links : List Text) (name : Text) : Text := links.flatMap (· ++ "::".toList) ++ name

structure IsPath (links : List Text) (name : Text) : Prop where
  front : ∀ n ∈ links, IsName n
  last : IsName name

theorem pathText_cons (n : Text) (links : List Text) (name : Text) :
    pathText (n :: links) name = n ++ "::".toList ++ pathText links name := by
  rw [pathText, flatMap_cons, append_assoc]
  rfl

theorem IsPath.mem (h : IsPath links name) (hx : x ∈ pathText links name) :
    isWord x = true ∨ x = ':' := by
  rcases mem_append.1 hx with hx | hx
  · obtain ⟨n, hn, hx⟩ := mem_flatMap.1 hx
    rcases mem_append.1 hx with hx | hx
    · exact .inl ((h.front n hn).word x hx)
    · exact .inr ((by decide : ∀ x ∈ "::".toList, x = ':') x hx)
  · exact .inl (h.last.word x hx)

theorem IsPath.not_mem (h : IsPath links name) (hx : isWord x = false)
    (hcolon : x ≠ ':') : x ∉ pathText links name := by
  intro hmem
  rcases h.mem hmem with hword | rfl
  · rw [hx] at hword
    cases hword
  · exact hcolon rfl

theorem IsPath.ne_nil (h : IsPath links name) : pathText links name ≠ [] :=
  append_ne_nil_of_right_ne_nil _ h.last.ne_nil

theorem repeats_pathText (h : IsPath links name) (before : Text) :
    Repeats (do lit "::"; word) before ("::".toList ++ pathText links name) [] := by
  have hlink : ∀ {n before rest : Text}, IsName n →
      Way (do lit "::"; word) before () ("::".toList ++ n) rest := by
    intro n before rest hn
    exact way_bind.2 ⟨(), _, _, rfl, way_lit.2 rfl, way_many1.2 ⟨hn.ne_nil, hn.word⟩⟩
  induction links generalizing before with
  | nil =>
    rw [← append_nil ("::".toList ++ pathText [] name)]
    exact .cons (by simp) (hlink h.last) .nil
  | cons n links ih =>
    have hn := h.front n mem_cons_self
    have hrest : IsPath links name := ⟨fun m hm => h.front m (mem_cons_of_mem n hm), h.last⟩
    rw [pathText_cons, append_assoc, ← append_assoc]
    exact .cons (by simp) (hlink hn) (ih hrest _)

theorem isSome_readAll?_path (h : IsPath links name) :
    (FieldType.path.readAll? (pathText links name)).isSome = true := by
  have hway : Way FieldType.path [] () (pathText links name) [] := by
    cases links with
    | nil =>
      refine way_bind.2 ⟨(), name, [], (append_nil name).symm,
        way_many1.2 ⟨h.last.ne_nil, h.last.word⟩, ?_⟩
      exact way_star.2 .nil
    | cons n links =>
      have hn := h.front n mem_cons_self
      have hrest : IsPath links name := ⟨fun m hm => h.front m (mem_cons_of_mem n hm), h.last⟩
      rw [pathText_cons, append_assoc]
      exact way_bind.2 ⟨(), n, _, rfl, way_many1.2 ⟨hn.ne_nil, hn.word⟩,
        way_star.2 (repeats_pathText hrest _)⟩
  rw [Way, append_nil] at hway
  rw [readAll?, Option.isSome_map, find?_isSome]
  exact ⟨_, hway, beq_self_eq_true _⟩

theorem matchesFrom_colons {n : Text} (hn : ':' ∉ n) (before rest : Text) :
    matchesFrom (lit "::") 0 before (n ++ rest) = matchesFrom (lit "::") 0 (n.reverse ++ before)
      rest := by
  induction n generalizing before with
  | nil => rfl
  | cons x n ih =>
    rw [mem_cons, not_or] at hn
    rw [cons_append, matchesFrom_of_not_some, ih hn.2, reverse_cons, append_assoc]
    · rfl
    · intro v k h
      exact hn.1 (cons_prefix_cons.1 (mem_lit.1 (mem_of_mem_head? h)).1).1

theorem stop_matchesFrom_colons (h : IsPath links name) (before : Text) :
    ((matchesFrom (lit "::") 0 before (pathText links name)).getLast?.map (·.stop)).getD
      before.length =
      before.length + (links.flatMap (· ++ "::".toList)).length := by
  have hcolon : ∀ {n}, IsName n → ':' ∉ n := fun hn hmem => absurd (hn.word _ hmem) (by decide)
  induction links generalizing before with
  | nil =>
    have hnone := matchesFrom_colons (hcolon h.last) before []
    rw [append_nil, matchesFrom_nil] at hnone
    rw [show pathText [] name = name from rfl, hnone]
    rfl
  | cons n links ih =>
    have hrest : IsPath links name := ⟨fun m hm => h.front m (mem_cons_of_mem n hm), h.last⟩
    have hfirst : (lit "::").firstAt ⟨n.reverse ++ before, "::".toList ++ pathText links name⟩ =
        some ((), 2) := by
      simp [firstAt, lit]
    have hnext := ih hrest ("::".toList.reverse ++ (n.reverse ++ before))
    rw [pathText_cons, append_assoc, matchesFrom_colons (hcolon (h.front n mem_cons_self))]
    rw [show "::".toList ++ pathText links name = ':' :: ':' :: pathText links name from rfl]
      at hfirst ⊢
    rw [matchesFrom_of_some hfirst, matchesFrom_succ, getLast?_cons]
    rw [show "::".toList.reverse ++ (n.reverse ++ before) = ':' :: ':' :: (n.reverse ++ before)
      from rfl] at hnext
    have hfront : ((n :: links).flatMap (· ++ "::".toList)).length =
        n.length + 2 + (links.flatMap (· ++ "::".toList)).length := by
      rw [flatMap_cons, length_append, length_append]
      rfl
    rw [hfront]
    cases hlast : (matchesFrom (lit "::") 0 (':' :: ':' :: (n.reverse ++ before))
      (pathText links name)).getLast? with
    | none =>
      rw [hlast] at hnext
      simp only [Option.map_none, Option.getD_none, length_cons, length_append, length_reverse]
        at hnext
      simp only [Option.getD_none, Option.map_some, Option.getD_some, length_append, length_reverse]
      omega
    | some m =>
      rw [hlast] at hnext
      simp only [Option.map_some, Option.getD_some, length_cons, length_append, length_reverse]
        at hnext
      simp only [Option.map_some, Option.getD_some]
      omega

theorem lastPart_pathText (h : IsPath links name) :
    Text.lastPart "::" (pathText links name) = name := by
  have hstop := stop_matchesFrom_colons h []
  rw [Text.lastPart, findAll_eq_matchesFrom]
  cases hlast : (matchesFrom (lit "::") 0 [] (pathText links name)).getLast? with
  | none =>
    rw [show matchesFrom (lit "::".toList) 0 [] (pathText links name) = _ from rfl] at hlast
    rw [hlast] at hstop
    have hnil : links.flatMap (· ++ "::".toList) = [] :=
      length_eq_zero_iff.1 (by simpa using hstop.symm)
    rw [pathText, hnil, nil_append]
  | some m =>
    rw [hlast, Option.map_some, Option.getD_some, length_nil, Nat.zero_add] at hstop
    show (pathText links name).drop m.stop = name
    rw [hstop, pathText, drop_left]

/-! ## Trees -/

/-- The name, in any letter case, of a primitive type of the size. -/
def PrimitiveName (name : Text) (size : Nat) : Prop :=
  ∃ e ∈ FieldType.primitiveSizes, Text.lower name = e.1.toList ∧ size = e.2

/-- The path of a type that is not known: neither a primitive type nor the string. -/
structure UnknownPath (links : List Text) (name : Text) : Prop extends IsPath links name where
  primitive : ∀ e ∈ FieldType.primitiveSizes, Text.lower (pathText links name) ≠ e.1.toList
  string : Text.lower (pathText links name) ≠ "string".toList

/-- What a type is wrapped in. -/
inductive Wrapper where
  | option
  | sequence

/-- The name of a wrapper. -/
def Wrapper.key : Wrapper → Text
  | option => "option"
  | sequence => "vec"

/-- The type that is wrapped. -/
def Wrapper.around : Wrapper → Text → FieldType → FieldType
  | option => .option
  | sequence => .sequence

/-- The path of a wrapper, whose last name is the wrapper's in any letter case. -/
structure WrapperPath (kind : Wrapper) (links : List Text) (name : Text) :
    Prop extends IsPath links name where
  key : Text.lower name = kind.key

/-- A type as it is meant. -/
inductive TypeTree where
  | primitive (name : Text) (size : Nat) (h : PrimitiveName name size)
  | string (name : Text) (h : Text.lower name = "string".toList)
  | unknown (links : List Text) (name : Text) (h : UnknownPath links name)
  | array (element : TypeTree) (length : Nat)
  | wrapped (kind : Wrapper) (links : List Text) (name : Text) (h : WrapperPath kind links name)
      (inner : TypeTree)

namespace TypeTree

/-- The tokens of a path. -/
def pathTokens (links : List Text) (name : Text) : List Text :=
  links.flatMap (fun n => [n, "::".toList]) ++ [name]

/-- The tokens of a type, from left to right. -/
def tokens : TypeTree → List Text
  | primitive name _ _ | string name _ => [name]
  | unknown links name _ => pathTokens links name
  | array element length =>
    ["[".toList] ++ element.tokens ++ [";".toList, Text.ofNat length, "]".toList]
  | wrapped _ links name _ inner =>
    pathTokens links name ++ ["<".toList] ++ inner.tokens ++ [">".toList]

/-- The text of a type without spaces. -/
def text (tree : TypeTree) : Text := tree.tokens.flatten

/-- What the type is read as: the same tree, with the text at each node. -/
def descriptor : TypeTree → FieldType
  | primitive name size _ => .primitive name size
  | string name _ => .string name
  | unknown links name h => .unknown (unknown links name h).text
  | array element length => .array (array element length).text element.descriptor length
  | wrapped kind links name h inner =>
    kind.around (wrapped kind links name h inner).text inner.descriptor

/-- The capacity of a sequence of this type without a bound: the one that the table has for a name,
and the fallback for any other type. -/
def defaultRoom : TypeTree → Nat
  | primitive name _ _ | string name _ =>
    (FieldType.lookupName? FieldType.defaultCapacities name).getD FieldType.fallbackCapacity
  | unknown links name _ =>
    (FieldType.lookupName? FieldType.defaultCapacities (pathText links name)).getD
      FieldType.fallbackCapacity
  | array _ _ | wrapped _ _ _ _ _ => FieldType.fallbackCapacity

/-- The size of a type with a bound. The bound goes through options and is not passed on to
elements. -/
def bytes (bound : Option Bound) : TypeTree → Nat
  | primitive _ size _ => size
  | string _ _ =>
    let room := (bound.map Bound.toNat).getD 32
    room + FieldType.counterSize room
  | unknown _ _ _ => 32
  | array element length => length * element.bytes none
  | wrapped .option _ _ _ inner => 1 + inner.bytes bound
  | wrapped .sequence _ _ _ element =>
    let room := (bound.map Bound.toNat).getD element.defaultRoom
    room * element.bytes none + FieldType.counterSize room

/-- The names in the type that are not known, from left to right. -/
def unknownLeaves : TypeTree → List Text
  | primitive _ _ _ | string _ _ => []
  | unknown links name _ => [pathText links name]
  | array inner _ | wrapped _ _ _ _ inner => inner.unknownLeaves

/-! ## Texts of trees -/

theorem flatten_pathTokens (links : List Text) (name : Text) :
    (pathTokens links name).flatten = pathText links name := by
  rw [pathTokens, flatten_append, flatten_singleton, pathText]
  congr 1
  induction links with
  | nil => rfl
  | cons n links ih => rw [flatMap_cons, flatten_append, ih, flatMap_cons]; simp

theorem text_array (element : TypeTree) (length : Nat) :
    (array element length).text = '[' :: (element.text ++ ';' :: (Text.ofNat length ++ [']'])) := by
  simp [text, tokens]

theorem text_wrapped {kind : Wrapper} (h : WrapperPath kind links name)
    (inner : TypeTree) : (wrapped kind links name h inner).text = pathText links name ++ '<' ::
    (inner.text ++ ['>']) := by
  simp [text, tokens, flatten_pathTokens]

theorem lookupName?_eq_none_of_mem {α : Type} {table : List (String × α)} (hx : toLower x = x)
    (htable : ∀ e ∈ table, x ∉ e.1.toList) (h : x ∈ t) : FieldType.lookupName? table t = none := by
  rw [FieldType.lookupName?, Option.map_eq_none_iff, find?_eq_none]
  intro e he heq
  refine htable e he ?_
  rw [eq_of_beq heq, Text.lower, ← hx]
  exact mem_map_of_mem h

theorem PrimitiveName.not_mem (h : PrimitiveName name size) (hx : toLower x = x)
    (htable : ∀ e ∈ FieldType.primitiveSizes, x ∉ e.1.toList) : x ∉ name := by
  obtain ⟨e, he, hlower, -⟩ := h
  intro hmem
  refine htable e he ?_
  rw [← hlower, Text.lower, ← hx]
  exact mem_map_of_mem hmem

theorem not_mem_tokens (hword : isWord x = false) (hcase : toLower x = x)
    (htable : ∀ e ∈ ("string", 0) :: FieldType.primitiveSizes, x ∉ e.1.toList)
    (hmark : x ∉ "[;]<>:".toList) (tree : TypeTree) : ∀ t ∈ tree.tokens, x ∉ t := by
  have hname : ∀ {n}, IsName n → x ∉ n := fun hn hmem => by
    rw [hn.word x hmem] at hword
    cases hword
  have hmark : ∀ {t : Text}, (∀ y ∈ t, y ∈ "[;]<>:".toList) → x ∉ t :=
    fun h hmem => hmark (h x hmem)
  have hpath : ∀ {links name}, IsPath links name → ∀ t ∈ pathTokens links name, x ∉ t := by
    intro links name h t ht
    simp only [pathTokens, mem_append, mem_flatMap, mem_cons, not_mem_nil, or_false] at ht
    obtain ⟨n, hn, rfl | rfl⟩ | rfl := ht
    · exact hname (h.front _ hn)
    · exact hmark (by decide)
    · exact hname h.last
  induction tree with
  | primitive name size h =>
    intro t ht
    rw [mem_singleton.1 ht]
    exact PrimitiveName.not_mem h hcase fun e he => htable e (mem_cons_of_mem _ he)
  | string name h =>
    intro t ht hmem
    rw [mem_singleton.1 ht] at hmem
    refine htable _ mem_cons_self ?_
    rw [← h, Text.lower, ← hcase]
    exact mem_map_of_mem hmem
  | unknown links name h => exact hpath h.toIsPath
  | array element length ih =>
    intro t ht
    simp only [tokens, mem_append, mem_cons, not_mem_nil, or_false] at ht
    obtain (rfl | ht) | rfl | rfl | rfl := ht
    · exact hmark (by decide)
    · exact ih t ht
    · exact hmark (by decide)
    · intro hmem
      have hdigit : isHexDigit x = true := by simp [isHexDigit, FieldType.isDigit_of_mem_ofNat hmem]
      rw [isWord_of_isHexDigit hdigit] at hword
      cases hword
    · exact hmark (by decide)
  | wrapped kind links name h inner ih =>
    intro t ht
    simp only [tokens, mem_append, mem_singleton] at ht
    obtain ((ht | rfl) | ht) | rfl := ht
    · exact hpath h.toIsPath t ht
    · exact hmark (by decide)
    · exact ih t ht
    · exact hmark (by decide)

theorem isInner_text (tree : TypeTree) : FieldType.isInner tree.text = true := by
  have hne : tree.text ≠ [] := by
    cases tree with
    | primitive name size h =>
      intro hnil
      have hname : name = [] := by simpa [text, tokens] using hnil
      obtain ⟨e, he, hlower, -⟩ := h
      rw [hname] at hlower
      exact (by decide : ∀ e ∈ FieldType.primitiveSizes, [] ≠ e.1.toList) e he hlower
    | string name h =>
      intro hnil
      have hname : name = [] := by simpa [text, tokens] using hnil
      rw [hname] at h
      cases h
    | unknown links name h =>
      rw [text, tokens, flatten_pathTokens]
      exact h.ne_nil
    | array element length => rw [text_array]; simp
    | wrapped kind links name h inner => rw [text_wrapped]; simp
  have hline : '\n' ∉ tree.text := fun hmem => by
    obtain ⟨t, ht, hmem⟩ := mem_flatten.1 hmem
    exact not_mem_tokens (by decide) (by decide) (by decide) (by decide) tree t ht hmem
  rw [FieldType.isInner, Bool.and_eq_true, Bool.not_eq_true', Bool.not_eq_true',
    isEmpty_eq_false_iff]
  exact ⟨hne, by simpa using hline⟩

/-! ## Reading a tree -/

theorem lookupName?_primitiveSizes (h : PrimitiveName name size) :
    FieldType.lookupName? FieldType.primitiveSizes name = some size := by
  obtain ⟨e, he, hlower, rfl⟩ := h
  rw [FieldType.lookupName?, hlower]
  exact (by decide : ∀ e ∈ FieldType.primitiveSizes,
    (FieldType.primitiveSizes.find? fun e' => e'.1.toList == e.1.toList).map (·.2) = some e.2) e he

theorem lookupName?_of_unknown (h : ∀ e ∈ FieldType.primitiveSizes, Text.lower t ≠ e.1.toList) :
    FieldType.lookupName? FieldType.primitiveSizes t = none := by
  rw [FieldType.lookupName?, Option.map_eq_none_iff, find?_eq_none]
  exact fun e he heq => h e he (eq_of_beq heq).symm

theorem arrayParts?_path {name rest : Text} (h : IsPath links name) :
    FieldType.arrayParts? (pathText links name ++ rest) = none := by
  obtain ⟨x, t, ht⟩ := exists_cons_of_ne_nil h.ne_nil
  have hx : x ≠ '[' := by
    rintro rfl
    exact h.not_mem (x := '[') (by decide) (by decide) (by rw [ht]; exact mem_cons_self)
  rw [ht, cons_append]
  unfold FieldType.arrayParts?
  split
  · rename_i heq
    exact absurd (cons.inj heq).1 hx
  · rfl

theorem genericParts?_path (h : IsPath links name) :
    FieldType.genericParts? (pathText links name) = none := by
  have hdrop : (pathText links name).dropWhile (· != '<') = [] :=
    dropWhile_eq_nil_iff.2 fun x hx => by
      rw [bne_iff_ne]
      rintro rfl
      exact h.not_mem (x := '<') (by decide) (by decide) hx
  rw [FieldType.genericParts?, hdrop]

theorem genericParts?_wrapped (h : IsPath links name) {inner : Text}
    (hinner : FieldType.isInner inner = true) :
    FieldType.genericParts? (pathText links name ++ '<' :: (inner ++ ['>'])) =
    some (pathText links name, inner) := by
  have hpath : ∀ x ∈ pathText links name, (x != '<') = true := by
    intro x hx
    rw [bne_iff_ne]
    rintro rfl
    exact h.not_mem (by decide) (by decide) hx
  have hclosing : FieldType.beforeClosing? '>' (inner ++ ['>']) = some inner := by
    simp [FieldType.beforeClosing?]
  rw [FieldType.genericParts?, dropWhile_append_of_pos hpath, takeWhile_append_of_pos hpath,
    dropWhile_cons_of_neg (by simp), takeWhile_cons_of_neg (by simp), append_nil]
  simp [hclosing, hinner, isSome_readAll?_path h]

/-- **The text of a tree without spaces is read as the tree.** -/
theorem ofCompact_text (tree : TypeTree) : FieldType.ofCompact tree.text = tree.descriptor := by
  induction tree with
  | primitive name size h =>
    rw [show (primitive name size h).text = name by simp [text, tokens], FieldType.ofCompact,
      lookupName?_primitiveSizes h]
    rfl
  | string name h =>
    have hnone : FieldType.lookupName? FieldType.primitiveSizes name = none :=
      lookupName?_of_unknown (by rw [h]; decide)
    rw [show (string name h).text = name by simp [text, tokens], FieldType.ofCompact, hnone]
    simp [h, descriptor]
  | unknown links name h =>
    have htext : (unknown links name h).text = pathText links name := flatten_pathTokens links name
    rw [descriptor, htext, FieldType.ofCompact, lookupName?_of_unknown h.primitive]
    have harray : FieldType.arrayParts? (pathText links name) = none := by
      rw [← append_nil (pathText links name)]
      exact arrayParts?_path h.toIsPath
    simp only [beq_iff_eq, h.string, if_false]
    split
    · rename_i heq
      rw [harray] at heq
      cases heq
    · split
      · rename_i heq
        rw [genericParts?_path h.toIsPath] at heq
        cases heq
      · rfl
  | array element length ih =>
    rw [descriptor, text_array, FieldType.ofCompact_array element.isInner_text, ih]
  | wrapped kind links name h inner ih =>
    have hangle : '<' ∈ pathText links name ++ '<' :: (inner.text ++ ['>']) := by simp
    have hprimitive : ∀ e ∈ FieldType.primitiveSizes, '<' ∉ e.1.toList := by decide
    have hnone := lookupName?_eq_none_of_mem (by decide) hprimitive hangle
    have hstring : Text.lower (pathText links name ++ '<' :: (inner.text ++ ['>'])) ≠
        "string".toList := by
      intro heq
      have hmem : toLower '<' ∈ Text.lower (pathText links name ++ '<' :: (inner.text ++ ['>'])) :=
        mem_map_of_mem hangle
      rw [heq] at hmem
      exact absurd hmem (by decide)
    have hlast := lastPart_pathText h.toIsPath
    rw [descriptor, text_wrapped, FieldType.ofCompact, hnone]
    simp only [beq_iff_eq, hstring, if_false]
    split
    · rename_i heq
      rw [arrayParts?_path h.toIsPath] at heq
      cases heq
    · split
      · rename_i wrapper arg heq
        rw [genericParts?_wrapped h.toIsPath inner.isInner_text] at heq
        obtain ⟨rfl, rfl⟩ := Prod.mk.inj (Option.some.inj heq)
        rw [FieldType.wrapperIs, FieldType.wrapperIs, hlast, h.key, ih]
        cases kind <;> rfl
      · rename_i heq
        rw [genericParts?_wrapped h.toIsPath inner.isInner_text] at heq
        cases heq

/-! ## Sizes -/

theorem name_descriptor (tree : TypeTree) : tree.descriptor.name = tree.text := by
  rw [← ofCompact_text, FieldType.name_ofCompact]

theorem defaultCapacity_descriptor (tree : TypeTree) :
    tree.descriptor.defaultCapacity = tree.defaultRoom := by
  rw [FieldType.defaultCapacity, name_descriptor]
  cases tree with
  | primitive name size h => simp [text, tokens, defaultRoom]
  | string name h => simp [text, tokens, defaultRoom]
  | unknown links name h => rw [text, tokens, flatten_pathTokens, defaultRoom]
  | array element length =>
    rw [text_array, lookupName?_eq_none_of_mem (x := '[') (by decide) (by decide) mem_cons_self]
    rfl
  | wrapped kind links name h inner =>
    rw [text_wrapped, lookupName?_eq_none_of_mem (x := '<') (by decide) (by decide) (by simp)]
    rfl

theorem size_descriptor (tree : TypeTree) (bound : Option Bound) :
    tree.descriptor.size bound = tree.bytes bound := by
  induction tree generalizing bound with
  | primitive name size h => rfl
  | string name h => rfl
  | unknown links name h => rfl
  | array element length ih => rw [descriptor, FieldType.size, bytes, ih]
  | wrapped kind links name h inner ih =>
    cases kind with
    | option => rw [descriptor, Wrapper.around, FieldType.size, bytes, ih]
    | sequence =>
      rw [descriptor, Wrapper.around, FieldType.size, bytes, ih, defaultCapacity_descriptor]
      rfl

theorem unknowns_descriptor (tree : TypeTree) : tree.descriptor.unknowns = tree.unknownLeaves := by
  induction tree with
  | primitive name size h => rfl
  | string name h => rfl
  | unknown links name h =>
    rw [descriptor, FieldType.unknowns, unknownLeaves, text, tokens, flatten_pathTokens]
  | array element length ih => rw [descriptor, FieldType.unknowns, unknownLeaves, ih]
  | wrapped kind links name h inner ih => cases kind <;> exact ih

end TypeTree

/-! ## Spaces -/

/-- A text with any number of spaces around its tokens. -/
inductive Spaced : List Text → Text → Prop where
  | nil (n : Nat) : Spaced [] (List.replicate n ' ')
  | cons (n : Nat) {token : Text} {tokens : List Text} {t : Text} (h : Spaced tokens t) :
    Spaced (token :: tokens) (List.replicate n ' ' ++ token ++ t)

theorem Spaced.filter_eq {tokens : List Text} (h : Spaced tokens t)
    (htokens : ∀ token ∈ tokens, ' ' ∉ token) :
    t.filter (· != ' ') = tokens.flatten := by
  have hspaces : ∀ n, (replicate n ' ').filter (· != ' ') = [] := fun n =>
    filter_eq_nil_iff.2 fun x hx => by simp [eq_of_mem_replicate hx]
  induction h with
  | nil n => exact hspaces n
  | @cons n token tokens t h ih =>
    obtain ⟨htoken, hrest⟩ := forall_mem_cons.1 htokens
    have hkept : token.filter (· != ' ') = token :=
      filter_eq_self.2 fun x hx => by
        rw [bne_iff_ne]
        rintro rfl
        exact htoken hx
    rw [filter_append, filter_append, hspaces, hkept, ih hrest, flatten_cons, nil_append]

/-- The assumptions that a record notes for a field: one for each name in its type that is not
known. -/
def TypeTree.assumptions (tree : TypeTree) (r : StateRecord) (f : StateField) :
    List SizeAssumption :=
  tree.unknownLeaves.map fun name => ⟨r.name, f.name, name, 32⟩

/-- **Reading types undoes writing them, and sizes follow the tree.** However the tokens of a type
are spaced, the text is read as the tree, has the size that the tree gives for every bound, and
gives a field that size at any place. A record with the field notes an assumption for each unknown
name of the type, in order, between those of the fields before and after it. -/
theorem parse_typeTree {tree : TypeTree} {t : Text} (h : Spaced tree.tokens t) :
    FieldType.parse t = tree.descriptor ∧
    (∀ bound, (FieldType.parse t).size bound = tree.bytes bound) ∧
      ∀ (r : StateRecord) (before after : List StateField) (f : StateField),
      r.fields = before ++ f :: after → f.ty = t →
        (∀ offset, (PlacedField.ofField offset f).size = tree.bytes f.bound) ∧
          (RecordLayout.ofRecord r).assumptions =
          (RecordLayout.ofRecord { r with fields := before }).assumptions ++
            (tree.assumptions r f ++
              (RecordLayout.ofRecord { r with fields := after }).assumptions) := by
  have hparse : FieldType.parse t = tree.descriptor := by
    rw [FieldType.parse,
      h.filter_eq (tree.not_mem_tokens (by decide) (by decide) (by decide) (by decide))]
    exact tree.ofCompact_text
  refine ⟨hparse, fun bound => by rw [hparse, tree.size_descriptor], ?_⟩
  rintro r before after f hfields rfl
  refine ⟨fun offset => ?_, ?_⟩
  · rw [← tree.size_descriptor, ← hparse, PlacedField.ofField]
    dsimp only
    split <;> rfl
  · show RecordLayout.assumptionsOf r = RecordLayout.assumptionsOf _ ++
        (_ ++ RecordLayout.assumptionsOf _)
    rw [RecordLayout.assumptionsOf, hfields, List.flatMap_append, List.flatMap_cons, hparse,
      tree.unknowns_descriptor]
    rfl

/-- The type `std::option::Option<Vec<[my::Point; 3]>>`. -/
def nestedTree : TypeTree :=
  .wrapped .option ["std".toList, "option".toList] "Option".toList ⟨⟨by decide, by decide⟩,
    by decide⟩
    (.wrapped .sequence [] "Vec".toList ⟨⟨by decide, by decide⟩, by decide⟩
      (.array (.unknown ["my".toList] "Point".toList ⟨⟨by decide, by decide⟩,
        by decide, by decide⟩) 3))

/-- The text of `nestedTree` with some spaces. -/
def nestedText : Text := "std:: option ::Option<Vec< [my::Point; 3 ]>>  ".toList

theorem spaced_nestedText : Spaced nestedTree.tokens nestedText :=
  .cons 0 (.cons 0 (.cons 1
    (.cons 1 (.cons 0 (.cons 0 (.cons 0 (.cons 0 (.cons 1 (.cons 0 (.cons 0 (.cons 0
    (.cons 0 (.cons 1 (.cons 1 (.cons 0 (.cons 0 (.nil 2)))))))))))))))))

/-- A record whose one field has the type. -/
def nestedRecord : StateRecord where
  name := "Path".toList
  fields := [{ name := "points".toList, ty := nestedText, bound := some (.count 300) }]
  hasInitSpace := false

theorem parse_typeTree_nested :
    FieldType.parse nestedText = nestedTree.descriptor ∧
      (FieldType.parse nestedText).size (some (.count 300)) = 1 + (300 * (3 * 32) + 2) ∧
      (FieldType.parse nestedText).size none = 1 + (32 * (3 * 32) + 1) ∧
      (RecordLayout.ofRecord nestedRecord).assumptions =
      [⟨"Path".toList, "points".toList, "my::Point".toList, 32⟩] := by
  obtain ⟨hparse, hsize, hrecord⟩ := parse_typeTree spaced_nestedText
  exact ⟨hparse, hsize _, hsize _, (hrecord nestedRecord [] [] _ rfl rfl).2⟩

end AnchorLowering
