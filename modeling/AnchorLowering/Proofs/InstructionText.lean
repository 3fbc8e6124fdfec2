import AnchorLowering.Proofs.RuleBrackets
import AnchorLowering.Proofs.WovenText

/-!
# The text of an instruction

A call of another program becomes an instruction struct that is invoked, or a transfer that is
written in place. Its accounts and its amount are parts of a template, and so are the seeds of the
signer and the bump; if each of them may be put into a template, what is written may be too
(`CallTarget.fits_instruction`, `fits_invokeSigned`).
-/

namespace AnchorLowering

open List Pattern Source

variable {t : CallTarget} {accounts : List (String × Text)} {parts : List Text}
  {instruction seed separator amount : Text}

/-! ## Joined parts -/

namespace Source

theorem head?_join {q : Char} (hseparator : separator.head? ≠ some q)
    (h : ∀ part ∈ parts, part.head? ≠ some q) : (Text.join separator parts).head? ≠ some q := by
  induction parts with
  | nil => simp [Text.join]
  | cons part parts ih =>
    have hpart := h part mem_cons_self
    cases parts with
    | nil => simpa [Text.join] using hpart
    | cons part' parts =>
      have hrest := ih fun p hp => h p (mem_cons_of_mem _ hp)
      rw [Text.join, intercalate_cons_cons, head?_append, head?_append]
      cases hhead : part.head? with
      | some x =>
        rw [hhead] at hpart
        simpa using hpart
      | none =>
        cases hsep : separator.head? with
        | some x =>
          rw [hsep] at hseparator
          simpa using hseparator
        | none => simpa [Text.join] using hrest

/-- Parts with a template between neighbours. -/
theorem fits_join (hseparator : Opening separator) (hbracketed : Bracketed separator)
    (hafresh : ∀ v : Text, v.head? ≠ some '\'' → Afresh (separator ++ v))
    (hhead : separator.head? ≠ some '\'') (h : ∀ part ∈ parts, Fits part ∧ part.head? ≠ some '\'') :
    Fits (Text.join separator parts) := by
  induction parts with
  | nil => exact (fits_plain (by decide) (by decide) : Fits [])
  | cons part parts ih =>
    cases parts with
    | nil => simpa [Text.join] using (h part mem_cons_self).1
    | cons part' parts =>
      have hrest := ih fun p hp => h p (mem_cons_of_mem _ hp)
      rw [Text.join, intercalate_cons_cons, append_assoc]
      refine (h part mem_cons_self).1.link hrest hseparator (hafresh _ ?_) hbracketed
      exact head?_join hhead fun p hp => (h p (mem_cons_of_mem _ hp)).2

theorem fits_commaJoin (h : ∀ part ∈ parts, Fits part ∧ part.head? ≠ some '\'') :
    Fits (Text.join ", " parts) :=
  fits_join (by decide) (by decide) (fun v _ => afresh_cons (k := ',') (t := ' ' :: v) (by decide)
    (by simp)) (by decide) h

theorem fits_blankJoin (h : ∀ part ∈ parts, Fits part ∧ part.head? ≠ some '\'') :
    Fits (Text.join " " parts) :=
  fits_join (by decide) (by decide) (fun v hv => afresh_cons (by decide) hv) (by decide) h

end Source

namespace Lowering

/-! ## Instructions -/

/-- The accounts of an instruction have the names of its roles, and may be put into a template. -/
def CallTarget.FitAccounts (t : CallTarget) (accounts : List (String × Text)) : Prop :=
  ∀ a ∈ accounts, (∃ role ∈ t.roles, role.1 = a.1) ∧ Fits a.2

theorem fits_lookup (h : t.FitAccounts accounts) (role : String) :
    Fits ((accounts.lookup role).getD []) := by
  cases hlookup : accounts.lookup role with
  | none => exact fits_plain (by decide) (by decide)
  | some account =>
    obtain ⟨l, l', hsplit, -⟩ := lookup_eq_some_iff.1 hlookup
    exact (h (role, account) (by rw [hsplit]; simp)).2

theorem CallTarget.fits_instruction (ht : t ∈ callTargets) (haccounts : t.FitAccounts accounts)
    (hamount : Fits amount) : Fits (t.instruction accounts amount) := by
  have hroles : ∀ t ∈ callTargets, ∀ role ∈ t.roles, Opening (role.1.toList ++ ": ".toList) ∧
      Bracketed (role.1.toList ++ ": ".toList) ∧ (role.1.toList ++ ": ".toList).head? ≠
      some '\'' := by decide
  have htemplate : ∀ t ∈ callTargets, Opening (t.structPath.toList ++ " \x7b ".toList) ∧
      Opening (", ".toList ++ (t.amountField.toList ++ ": ".toList)) ∧
      Bracketed (t.structPath.toList ++ " \x7b ".toList ++
        (", ".toList ++ (t.amountField.toList ++ ": ".toList) ++ " \x7d".toList)) := by decide
  have hfields : Fits
      (Text.join ", " (accounts.map fun a => Text.concat [a.1.toList, ": ", a.2])) := by
    refine fits_commaJoin fun part hpart => ?_
    obtain ⟨a, ha, rfl⟩ := mem_map.1 hpart
    obtain ⟨⟨role, hrole, heq⟩, hfits⟩ := haccounts a ha
    obtain ⟨hopening, hbracketed, hquote⟩ := hroles t ht role hrole
    rw [heq] at hopening hbracketed hquote
    have hconcat : Text.concat [a.1.toList, ": ", a.2] = (a.1.toList ++ ": ".toList) ++ a.2 := by
      simp [Text.concat]
    rw [hconcat]
    exact ⟨hfits.after hopening hbracketed, by rwa [head?_append_of_ne_nil _ hopening.ne_nil]⟩
  obtain ⟨hopening, hjoint, hbracketed⟩ := htemplate t ht
  have hinstruction : t.instruction accounts amount = (t.structPath.toList ++ " \x7b ".toList) ++
      (Text.join ", " (accounts.map fun a => Text.concat [a.1.toList, ": ", a.2]) ++
        ((", ".toList ++ (t.amountField.toList ++ ": ".toList)) ++
          (amount ++ " \x7d".toList))) := by
    simp [CallTarget.instruction, braces, Text.concat]
  rw [hinstruction]
  exact hfields.around₂ hamount hopening
    (joint_cons (k := ',') (t := ' ' :: (t.amountField.toList ++ ": ".toList)) hjoint (by decide)
      (by simp) (by simp))
    (ending_cons (by decide) (by decide) (by decide)) hbracketed

theorem fits_transferInPlace {source destination : Text} (hsource : Fits source)
    (hdestination : Fits destination) (hamount : Fits amount) :
    Fits (transferInPlace source destination amount) := by
  have hpaid := hamount.join hsource (m := "; *".toList)
    (joint_cons (by decide) (by decide) (by decide) (by decide)) (by decide)
  have hboth := hpaid.join hdestination (m := ".try_borrow_mut_lamports()? -= lamports; *".toList)
    (joint_cons (by decide) (by decide) (by decide) (by decide)) (by decide)
  have hall := hboth.around (u := "\x7b let lamports = ".toList)
    (v := ".try_borrow_mut_lamports()? += lamports; \x7d".toList) (by decide)
    (ending_cons (by decide) (by decide) (by decide)) (by decide)
  simpa [transferInPlace, braces, Text.concat] using hall

theorem suffix_mem (call : Call) :
    call.suffix ∈ ["".toList, "?".toList, ";".toList, "?;".toList] := by
  rw [Call.suffix]
  cases call.hasTry <;> cases call.hasSemicolon <;> decide

theorem fits_invoked (h : Fits instruction) (call : Call) :
    Fits (Text.concat [instruction, ".invoke()", call.suffix]) := by
  have hsuffix : ∀ s ∈ ["".toList, "?".toList, ";".toList, "?;".toList],
      Plain (".invoke()".toList ++ s) ∧ Bracketed (".invoke()".toList ++ s) := by decide
  obtain ⟨hplain, hbracketed⟩ := hsuffix _ (suffix_mem call)
  have hinvoked := h.before (v := ".invoke()".toList ++ call.suffix)
    (ending_cons (k := '.') (t := "invoke()".toList ++ call.suffix) (by decide) (by simp) hplain)
      hbracketed
  simpa [Text.concat] using hinvoked

/-! ## Seeds -/

theorem inert_ofNat (n : Nat) : Inert (Text.ofNat n) := by
  intro x hx
  have hword : isWord x = true := isWord_of_mem_text (.count n) x hx
  exact ⟨isPlain_of_isWord hword, isBracket_of_class (by decide) hword⟩

theorem inert_numbered {name : String} (hname : Inert name.toList) (index : Nat) :
    Inert (numbered name index) :=
  hname.append (inert_ofNat index)

/-- A nested seed may be put into a template. A seed of bytes lends only the bytes, without the
blanks around them. -/
@[mk_iff]
structure ReadableSeed (seed : Text) : Prop where
  bytes : ∀ bytes ∈ byteSeed.readAll? seed, Closed (Text.trim bytes)
  collapses : byteSeed.readAll? seed = none → Collapses seed

instance (seed : Text) : Decidable (ReadableSeed seed) :=
  decidable_of_iff _ (readableSeed_iff ..).symm

/-- What a seed becomes may be put into a template. -/
structure FitPart (part : List Text × Text) : Prop where
  statements : ∀ s ∈ part.1, Fits s ∧ s.head? ≠ some '\''
  reference : Fits part.2 ∧ part.2.head? ≠ some '\''

theorem ensures_byteSeed :
    byteSeed.Ensures fun bytes u => ∃ g, Blank g ∧ u = '&' :: (g ++ '[' :: (bytes ++ [']'])) := by
  have hblanks : blanks.Ensures fun _ u => ∀ x ∈ u, isBlank x = true :=
    Ensures.of_takes (Takes.many fun _ hx => hx)
  have htokens : (tokens ["&", "["]).Ensures fun _ u => ∃ g, Blank g ∧ u = '&' :: (g ++ ['[']) :=
    (Ensures.lit _).bind fun _ _ hand => hblanks.bind fun _ g hg => (Ensures.lit _).mono
      fun _ _ hopen =>
      ⟨g, hg, by rw [hand, hopen]; rfl⟩
  have hnot : (notAhead (do blanks; lit "..")).Ensures fun _ u => u = [] :=
    (Ensures.of_takes (Takes.notAhead : Takes (fun _ => False) _)).mono fun _ u h =>
      eq_nil_iff_forall_not_mem.2 h
  have hbytes : Bounded (many1 fun _ => true) := Bounded.many1
  refine htokens.bind fun _ u hu => hnot.bind fun _ w hw => (Ensures.of_takes hbytes).capture.bind
    fun bytes v hv =>
    (Ensures.lit _).bind fun _ _ hclose => .pure ?_
  obtain ⟨g, hg, rfl⟩ := hu
  obtain ⟨rfl, -⟩ := hv
  refine ⟨g, hg, ?_⟩
  rw [hw, hclose]
  simp

theorem Ensures.of_readAll? {α : Type} {p : Pattern α} {R : α → Text → Prop} (hp : p.Ensures R)
    {t : Text} {a : α} (h : p.readAll? t = some a) : R a t := by
  obtain ⟨r, hr, rfl⟩ := Option.map_eq_some_iff.1 h
  have hlen : r.2 = t.length := by simpa using find?_some hr
  obtain ⟨-, hR⟩ := hp _ r (mem_of_find?_eq_some hr)
  rw [hlen] at hR
  simpa [Cursor.start] using hR

/-- The bytes of a seed have its brackets, but for the pair around them. -/
theorem bracketed_bytes {bytes : Text} (hnested : Nested seed) (h : ReadableSeed seed)
    (hbytes : byteSeed.readAll? seed = some bytes) :
    Bracketed ('[' :: (brackets (codeText (marked (Text.trim bytes))) ++ [']'])) := by
  obtain ⟨g, hg, hseed⟩ := Ensures.of_readAll? ensures_byteSeed hbytes
  obtain ⟨k, k', htrim, hk, hk', -⟩ := exists_trim bytes
  have hsplit : seed = (('&' :: g) ++ ['['] ++ k) ++ (Text.trim bytes ++ (k' ++ [']'])) := by
    rw [hseed]
    conv => lhs; rw [htrim]
    simp
  have hplain : ∀ x ∈ '&' :: g, isPlain x = true :=
    forall_mem_cons.2 ⟨by decide, fun x hx => isPlain_of_isBlank (hg x hx)⟩
  have hopening : Opening (('&' :: g) ++ ['['] ++ k) :=
    (Opening.prepend (by decide : Opening ['[']) hplain).append_blanks hk
  have hending : Ending (k' ++ [']']) :=
    (ending_cons (by decide) (by decide) (by decide)).prepend_blanks (by decide) hk'
  rw [Nested, hsplit, codeText_between (h.bytes bytes hbytes) (fun _ => hopening)
    (fun _ => hending),
    ← bracketed_brackets] at hnested
  have hand : brackets ('&' :: g) = [] :=
    (filter_cons_of_neg (by decide)).trans (brackets_of_blank hg)
  have hopen : brackets ['['] = ['['] := rfl
  have hclose : brackets [']'] = [']'] := rfl
  simpa only [brackets_append, hand, hopen, hclose, brackets_of_blank hk, brackets_of_blank hk',
    nil_append, append_nil, singleton_append] using hnested

theorem fits_seedReference (h : Collapses seed) (hnested : Nested seed) :
    Fits (seedReference seed) := by
  rw [seedReference]
  split
  · exact h.fits hnested
  · have hreference := (h.fits hnested).before (v := ".as_ref()".toList)
      (ending_cons (by decide) (by decide) (by decide)) (by decide)
    simpa [Text.concat] using hreference

/-- A numbered local between two plain texts. -/
theorem fits_named {name u v : Text} (hname : Inert name) (hu : ∀ x ∈ u, isPlain x = true)
    (hv : Opening v) (h : Bracketed (brackets u ++ brackets v)) : Fits (u ++ (name ++ v)) := by
  refine fits_plain ((hv.prepend fun x hx => (hname x hx).1).prepend hu).plain ?_
  rw [← bracketed_brackets, brackets_append, brackets_append, hname.brackets_eq_nil]
  exact h

/-- **What a seed becomes may be put into a template**, if the seed may. -/
theorem fitPart_seedPart (hnested : Nested seed) (h : ReadableSeed seed) (signer k : Nat) :
    FitPart (seedPart signer seed k) := by
  have hname : Inert (Text.concat [numbered "cpi_seed_" signer, "_", Text.ofNat k]) := by
    have hnumbered : Inert (numbered "cpi_seed_" signer) := inert_numbered (by decide) signer
    have hparts := hnumbered.append ((by decide : Inert "_".toList).append (inert_ofNat k))
    simpa [Text.concat] using hparts
  rw [seedPart]
  generalize Text.concat [numbered "cpi_seed_" signer, "_", Text.ofNat k] = name at hname
  split
  next bytes hbytes =>
    refine ⟨fun s hs => ?_, ?_, ?_⟩
    · obtain rfl := mem_singleton.1 hs
      have hopening : Opening ("let ".toList ++ (name ++ " = [".toList)) :=
        ((by decide : Opening " = [".toList).prepend fun x hx => (hname x hx).1).prepend (by decide)
      have hfits := (h.bytes bytes hbytes).enclose hopening (v := "];".toList)
        (ending_cons (by decide) (by decide) (by decide)) ?_
      · exact ⟨by simpa [Text.concat] using hfits, by simp [Text.concat]⟩
      · rw [← bracketed_brackets]
        simp only [brackets_append, hname.brackets_eq_nil]
        exact bracketed_bytes hnested h hbytes
    · have hreference := fits_named hname (u := "Seed::from(&".toList) (v := ")".toList)
        (by decide) (by decide) (by decide)
      simpa [Text.concat] using hreference
    · simp [Text.concat]
  next hnone =>
    refine ⟨fun s hs => absurd hs not_mem_nil, ?_, ?_⟩
    · have hfits :=
        (fits_seedReference (h.collapses hnone) hnested).around (u := "Seed::from(".toList)
        (v := ")".toList) (by decide) (ending_cons (by decide) (by decide) (by decide)) (by decide)
      simpa [Text.concat] using hfits
    · simp [Text.concat]

theorem head?_instruction (ht : t ∈ callTargets) (accounts : List (String × Text)) (amount : Text) :
    (t.instruction accounts amount).head? ≠ some '\'' := by
  have hpath : ∀ t ∈ callTargets, t.structPath.toList ≠ [] ∧ t.structPath.toList.head? ≠
      some '\'' := by decide
  obtain ⟨hne, hquote⟩ := hpath t ht
  rw [CallTarget.instruction, Text.concat, flatten_cons, head?_append_of_ne_nil _ hne]
  exact hquote

/-- A statement that binds a numbered local to an array of what fits. -/
theorem fits_letArray {name t : Text} (hname : Inert name) (h : Fits t) :
    Fits (Text.concat ["let ", name, " = [", t, "];"]) := by
  have hopening : Opening ("let ".toList ++ (name ++ " = [".toList)) :=
    ((by decide : Opening " = [".toList).prepend fun x hx => (hname x hx).1).prepend (by decide)
  have hfits := h.around hopening (v := "];".toList)
    (ending_cons (by decide) (by decide) (by decide)) ?_
  · simpa [Text.concat] using hfits
  · rw [← bracketed_brackets]
    simp only [brackets_append, hname.brackets_eq_nil]
    decide

/-- **The statements that invoke an instruction with a signer may be put into a template**, if their
parts may. -/
theorem fits_invokeSigned (hinstruction : Fits instruction) (hhead : instruction.head? ≠ some '\'')
    {seeds : List Text} (hseeds : ∀ seed ∈ seeds, Nested seed ∧ ReadableSeed seed)
    {bump : Option Text} (hbump : ∀ b ∈ bump, Fits b) (signer : Nat) (call : Call) :
    Fits (invokeSigned signer seeds bump instruction call.suffix) := by
  have hbumpName : Inert (numbered "cpi_bump_" signer) := inert_numbered (by decide) signer
  have hseedsName : Inert (numbered "cpi_seeds_" signer) := inert_numbered (by decide) signer
  have hsignerName : Inert (numbered "cpi_signer_" signer) := inert_numbered (by decide) signer
  have hparts : ∀ part ∈ (seeds.zipIdx.map fun e => seedPart signer e.1 e.2) ++
      (bump.toList.map fun b =>
      ([Text.concat ["let ", numbered "cpi_bump_" signer, " = [", b, "];"]],
        Text.concat ["Seed::from(&", numbered "cpi_bump_" signer, ")"])), FitPart part := by
    intro part hpart
    rcases mem_append.1 hpart with hpart | hpart
    · obtain ⟨e, he, rfl⟩ := mem_map.1 hpart
      obtain ⟨hnested, hreadable⟩ := hseeds e.1 (fst_mem_of_mem_zipIdx he)
      exact fitPart_seedPart hnested hreadable signer e.2
    · obtain ⟨b, hb, rfl⟩ := mem_map.1 hpart
      have hfits := hbump b (Option.mem_toList.1 hb)
      refine ⟨fun s hs => ?_, ?_, ?_⟩
      · obtain rfl := mem_singleton.1 hs
        exact ⟨fits_letArray hbumpName hfits, by simp [Text.concat]⟩
      · have hreference := fits_named hbumpName (u := "Seed::from(&".toList) (v := ")".toList)
          (by decide) (by decide) (by decide)
        simpa [Text.concat] using hreference
      · simp [Text.concat]
  rw [invokeSigned]
  generalize (seeds.zipIdx.map fun e => seedPart signer e.1 e.2) ++ _ = parts at hparts
  refine fits_blankJoin fun s hs => ?_
  rcases mem_append.1 hs with hs | hs
  · obtain ⟨part, hpart, hs⟩ := mem_flatMap.1 hs
    exact (hparts part hpart).statements s hs
  · simp only [mem_cons, not_mem_nil, or_false] at hs
    obtain rfl | rfl | rfl := hs
    · refine ⟨fits_letArray hseedsName (fits_commaJoin fun reference hreference => ?_),
        by simp [Text.concat]⟩
      obtain ⟨part, hpart, rfl⟩ := mem_map.1 hreference
      exact (hparts part hpart).reference
    · have hopening :
          Opening ("let ".toList ++ (numbered "cpi_signer_" signer ++ (" = Signer::from(&".toList ++
          (numbered "cpi_seeds_" signer ++ ");".toList)))) :=
        ((((by decide : Opening ");".toList).prepend fun x hx => (hseedsName x hx).1).prepend
          (by decide)).prepend
          fun x hx => (hsignerName x hx).1).prepend (by decide)
      have hfits := fits_plain hopening.plain ?_
      · exact ⟨by simpa [Text.concat] using hfits, by simp [Text.concat]⟩
      · rw [← bracketed_brackets]
        simp only [brackets_append, hseedsName.brackets_eq_nil, hsignerName.brackets_eq_nil]
        decide
    · have hsuffix : ∀ s ∈ ["".toList, "?".toList, ";".toList, "?;".toList],
          Opening ("])".toList ++ s) ∧ brackets ("])".toList ++ s) = "])".toList := by decide
      obtain ⟨hopening, hbrackets⟩ := hsuffix _ (suffix_mem call)
      have hplain := ((hopening.prepend fun x hx => (hsignerName x hx).1).prepend
        (by decide : ∀ x ∈ ".invoke_signed(&[".toList, isPlain x = true)).plain
      have hfits := hinstruction.before (ending_cons (k := '.') (t := "invoke_signed(&[".toList ++
        (numbered "cpi_signer_" signer ++ ("])".toList ++ call.suffix))) (by decide) (by
          simp) hplain) ?_
      · refine ⟨by simpa [Text.concat] using hfits, ?_⟩
        rw [Text.concat, flatten_cons, head?_append]
        cases hx : instruction.head? with
        | none => simp
        | some x => rwa [hx] at hhead
      · rw [← bracketed_brackets]
        simp only [brackets_append, hsignerName.brackets_eq_nil, hbrackets, nil_append,
          ← cons_append]
        decide

end Lowering

end AnchorLowering
