import DemoOS.Proofs.Shell.Components

/-!
# The location that `normalize_path` leaves

The text that is left of a path is that of what is kept (`normalized_eq`), so the question is
when its location is that of the path. A name that ends with a dot is kept without it and without
its slash, and joins the next one; a name that ends with two dots is not kept at all. Both leave
fewer levels than the path has, for good (`foldl_shallower`), unless the name with one dot is
removed at once (`agrees_foldl`). `normalizePath_iff` is the result: `normalize_path` is right
exactly on the paths whose names end with no dot, those removed at once aside, and whose `..`
never meet the root, or on those that lead to the root by way of one such `..`.
-/

set_option autoImplicit false

namespace DemoOS.Path

open Support.CString Shell

/-! ## The text that is left -/

section Text

variable {k : Kept} {s rest : List UInt8}

/-- Characters are kept one behind the other. -/
theorem foldlM_chars (l : List UInt8) (ts : List Token) (out : List UInt8) :
    (l.map Token.char ++ ts).foldlM keep out = ts.foldlM keep (out ++ l) := by
  induction l generalizing out with
  | nil => rw [List.append_nil]; rfl
  | cons a l ih =>
      rw [List.map_cons, List.cons_append, List.foldlM_cons]
      show (_ ++ ts).foldlM keep (out ++ [a]) = _
      rw [ih, List.append_assoc]
      rfl

/-- What the tokens of a path leave of the text of `k`. -/
def readOn (k : Kept) (rest : List UInt8) : Option (List UInt8) :=
  k.out.bind fun out => (readPath rest).foldlM keep out

/-- A component with a slash behind it. -/
theorem readOn_component {c : Name} (hk : k.Clean) (hslash : SLASH ∉ c) (hne : c ≠ [])
    (rest : List UInt8) : readOn k (c ++ SLASH :: rest) = readOn (k.read c) rest := by
  have htokens := readPath_component hslash (e := SLASH :: rest) (Or.inr rfl)
  unfold readOn
  rw [htokens]
  cases hdots : trailingDots c with
  | zero =>
      rw [(Kept.out_read_name hne hdots).1, Option.bind_map]
      congr 1
      funext out
      show (_ ++ readPath (SLASH :: rest)).foldlM keep out = _
      rw [foldlM_chars, readPath_slash, List.foldlM_cons]
      show (readPath rest).foldlM keep (out ++ c ++ [SLASH]) = _
      rw [List.append_assoc]
      rfl
  | succ j =>
      cases j with
      | zero =>
          rw [Kept.out_read_dot hdots, Option.bind_map]
          congr 1
          funext out
          exact foldlM_chars _ _ out
      | succ j =>
          rw [Kept.out_read_dots hk hslash hdots, Option.bind_assoc]
          congr 1
          funext out
          show (_ ++ .parent :: readPath rest).foldlM keep out = _
          rw [foldlM_chars, List.foldlM_cons]
          rfl

/-- The last component has no slash behind it: a name without a dot at its end stays unfinished. -/
theorem readOn_last {c : Name} (hk : k.Clean) (hslash : SLASH ∉ c) :
    ∃ k' : Kept, k'.Clean ∧ readOn k c = k'.out ∧ k'.climbed = (k.read c).climbed
      ∧ k'.location = (k.read c).location := by
  by_cases hne : c = []
  · subst hne
    have hread : k.read [] = k := by rw [Kept.read, if_pos (Or.inl rfl)]
    refine ⟨k, hk, ?_, by rw [hread], by rw [hread]⟩
    rw [readOn, readPath]
    exact Option.bind_fun_some k.out
  · have htokens := readPath_component hslash (e := []) (Or.inl rfl)
    rw [List.append_nil] at htokens
    have hempty : ∀ out, (readPath ([] : List UInt8).tail).foldlM keep out = some out := by
      intro out
      rw [List.tail_nil, readPath]
      rfl
    unfold readOn
    rw [htokens]
    cases hdots : trailingDots c with
    | zero =>
        have hplain := (plain_of_trailingDots hslash hne hdots).append hk.noSlash
        have hread : k.read c
            = { k with names := k.names ++ [k.unfinished ++ c], unfinished := [] } := by
          have hdot := (plain_of_trailingDots hslash hne hdots).ne_dots
          rw [Kept.read, if_neg (not_or.mpr ⟨hne, hdot.1⟩), if_neg hdot.2, hdots]
        refine ⟨{ k with unfinished := k.unfinished ++ c }, ⟨hk.names, fun _ => hplain⟩, ?_, ?_, ?_⟩
        · rw [(Kept.out_read_name hne hdots).2, Option.map_eq_bind]
          congr 1
          funext out
          show (_ ++ readPath []).foldlM keep out = _
          rw [foldlM_chars]
          exact hempty _
        · rw [hread]
        · rw [hread]
          show k.names ++ (if k.unfinished ++ c = [] then [] else [k.unfinished ++ c]) = _
          rw [if_neg hplain.ne_nil]
          show _ = k.names ++ [k.unfinished ++ c] ++ []
          rw [List.append_nil]
    | succ j =>
        refine ⟨k.read c, hk.read hslash, ?_, rfl, rfl⟩
        cases j with
        | zero =>
            rw [Kept.out_read_dot hdots, Option.map_eq_bind]
            congr 1
            funext out
            show (_ ++ readPath ([] : List UInt8).tail).foldlM keep out = _
            rw [foldlM_chars]
            exact hempty _
        | succ j =>
            rw [Kept.out_read_dots hk hslash hdots]
            congr 1
            funext out
            show (_ ++ .parent :: readPath ([] : List UInt8).tail).foldlM keep out = _
            rw [foldlM_chars, List.foldlM_cons]
            exact (congrArg _ (funext hempty)).trans (Option.bind_fun_some _)

/-- The components of a path with a slash in it. -/
theorem components_eq_cons (h : SLASH ∈ rest) :
    components rest = textBefore SLASH rest :: components (textBehind SLASH rest) := by
  unfold components
  nth_rewrite 1 [eq_before_behind h]
  exact List.splitOn_append_cons_self_of_not_mem not_mem_textBefore _

/-- The rest of a path, from `k` on. -/
theorem readOn_eq (hk : k.Clean) (hinner : [] ∉ (components rest).dropLast) :
    ∃ k' : Kept, k'.Clean ∧ readOn k rest = k'.out
      ∧ k'.climbed = ((components rest).foldl Kept.read k).climbed
      ∧ k'.location = ((components rest).foldl Kept.read k).location := by
  induction hlen : rest.length using Nat.strong_induction_on generalizing rest k with
  | _ n ih =>
      by_cases hmem : SLASH ∈ rest
      · have hsplit := eq_before_behind hmem
        have hcut := components_eq_cons hmem
        have hrest : components (textBehind SLASH rest) ≠ [] := List.splitOn_ne_nil _ _
        rw [hcut, List.dropLast_cons_of_ne_nil hrest, List.mem_cons, not_or] at hinner
        have hslash : SLASH ∉ textBefore SLASH rest := not_mem_textBefore
        have hshorter : (textBehind SLASH rest).length < n := by
          rw [← hlen]
          nth_rewrite 2 [hsplit]
          rw [List.length_append, List.length_cons]
          omega
        obtain ⟨k', hclean, hout, hclimbed, hlocation⟩ :=
          ih _ hshorter (hk.read hslash) hinner.2 rfl
        refine ⟨k', hclean, ?_, ?_, ?_⟩
        · nth_rewrite 1 [hsplit]
          rw [readOn_component hk hslash (Ne.symm hinner.1), hout]
        · rw [hcut]
          exact hclimbed
        · rw [hcut]
          exact hlocation
      · have hone : components rest = [rest] := List.splitOn_eq_singleton hmem
        rw [hone]
        exact readOn_last hk hmem

/-- The text that is left of a path from the root. -/
theorem normalized_eq (hs : IsAbsolute s) :
    ∃ k : Kept, k.Clean ∧ normalized s = k.out ∧ k.climbed = climbs s
      ∧ k.location = (kept s).location := by
  obtain ⟨rest, rfl⟩ : ∃ rest, s = SLASH :: rest := by
    cases s with
    | nil => exact nomatch hs.rooted
    | cons a rest => exact ⟨rest, by rw [Option.some.inj hs.rooted]⟩
  have hcut : components (SLASH :: rest) = [] :: components rest :=
    List.splitOn_append_cons_self_of_not_mem (List.not_mem_nil (a := SLASH)) rest
  have hkept : kept (SLASH :: rest) = (components rest).foldl Kept.read Kept.root := by
    rw [kept, hcut]
    rfl
  have hinner := hs.inner
  rw [hcut, List.tail_cons] at hinner
  have hnormalized : normalized (SLASH :: rest) = readOn Kept.root rest := by
    rw [normalized, readPath_slash]
    rfl
  rw [hnormalized, climbs, hkept]
  exact readOn_eq Kept.clean_root hinner

end Text

/-! ## Its location -/

section Locations

variable {k : Kept} {c : Name} {u : List UInt8} {ns l : List Name}

/-- Nothing, or a plain component. -/
abbrev OptionalPlain (u : List UInt8) : Prop := u ≠ [] → Plain u

theorem OptionalPlain.noSlash (hu : OptionalPlain u) : SLASH ∉ u := by
  by_cases hnil : u = []
  · rw [hnil]
    exact List.not_mem_nil
  · exact (hu hnil).noSlash

theorem Plain.getLast (h : Plain c) (hne : c ≠ []) : c.getLast hne ≠ DOT := by
  obtain ⟨a, ha, hdot⟩ := h.last
  rw [List.getLast?_eq_some_getLast hne] at ha
  rw [Option.some.inj ha]
  exact hdot

/-- From a directory, plain names lead down. -/
theorem foldl_resolve_names (hns : ∀ n ∈ ns, Plain n) (hu : OptionalPlain u) (l : List Name) :
    (components (ns.flatMap (· ++ [SLASH]) ++ u)).foldl resolve l
      = l ++ (ns ++ if u = [] then [] else [u]) := by
  have hname : ∀ {n : Name} (l : List Name), Plain n → resolve l n = l ++ [n] := by
    intro n l hn
    rw [resolve, if_neg (not_or.mpr ⟨hn.ne_nil, hn.ne_dots.1⟩), if_neg hn.ne_dots.2]
  induction ns generalizing l with
  | nil =>
      have hone : components u = [u] := List.splitOn_eq_singleton hu.noSlash
      show (components u).foldl resolve l = _
      rw [hone, List.foldl_cons, List.foldl_nil, List.nil_append]
      by_cases hnil : u = []
      · rw [if_pos hnil, List.append_nil, resolve, if_pos (Or.inl hnil)]
      · rw [if_neg hnil, hname l (hu hnil)]
  | cons n ns ih =>
      have hn := hns n List.mem_cons_self
      have hcut : components ((n :: ns).flatMap (· ++ [SLASH]) ++ u)
          = n :: components (ns.flatMap (· ++ [SLASH]) ++ u) := by
        rw [List.flatMap_cons, List.append_assoc, List.append_assoc]
        exact List.splitOn_append_cons_self_of_not_mem hn.noSlash _
      rw [hcut, List.foldl_cons, hname l hn, ih fun m hm => hns m (List.mem_cons_of_mem n hm)]
      simp

/-- Plain names are read as they are. -/
theorem readPath_names (hns : ∀ n ∈ ns, Plain n) (hu : OptionalPlain u) :
    readPath (ns.flatMap (· ++ [SLASH]) ++ u) = (ns.flatMap (· ++ [SLASH]) ++ u).map .char := by
  have hempty : readPath ([] : List UInt8) = [] := by rw [readPath]
  induction ns with
  | nil =>
      show readPath u = u.map .char
      have htext := readPath_text hu.noSlash (fun hne => (hu hne).getLast hne) []
      rwa [List.append_nil, hempty, List.append_nil] at htext
  | cons n ns ih =>
      have hn := hns n List.mem_cons_self
      have hrest := ih fun m hm => hns m (List.mem_cons_of_mem n hm)
      rw [List.flatMap_cons, List.append_assoc, List.append_assoc]
      show readPath (n ++ SLASH :: (ns.flatMap (· ++ [SLASH]) ++ u)) = _
      rw [readPath_text hn.noSlash hn.getLast, readPath_slash, hrest]
      simp

/-- A text with its root, made of plain names, stays as it is and leads to these names. -/
theorem rooted_names (hk : k.Clean) (hclimbed : k.climbed = 0) :
    ∃ r, k.out = some r ∧ r.head? = some SLASH ∧ location r = k.location
      ∧ normalized r = some r := by
  have htext : k.front ++ k.unfinished
      = SLASH :: (k.names.flatMap (· ++ [SLASH]) ++ k.unfinished) := by
    rw [Kept.front, if_pos hclimbed]
    rfl
  refine ⟨_, Kept.out_of_le (by omega), ?_, ?_, ?_⟩
  · rw [htext]
    rfl
  · have hcut : components (SLASH :: (k.names.flatMap (· ++ [SLASH]) ++ k.unfinished))
        = [] :: components (k.names.flatMap (· ++ [SLASH]) ++ k.unfinished) :=
      List.splitOn_append_cons_self_of_not_mem (List.not_mem_nil (a := SLASH)) _
    rw [htext, location, hcut, List.foldl_cons]
    show (components _).foldl resolve [] = _
    rw [foldl_resolve_names hk.names hk.unfinished, List.nil_append]
    rfl
  · have hread := foldlM_chars (SLASH :: (k.names.flatMap (· ++ [SLASH]) ++ k.unfinished)) [] []
    rw [htext, normalized, readPath_slash, readPath_names hk.names hk.unfinished]
    rw [List.append_nil] at hread
    exact hread

/-- Without the root, what is left does not begin with a slash. -/
theorem unrooted_head (hk : k.Clean) (hclimbed : k.climbed = 1) :
    ∃ r, k.out = some r ∧ r.head? ≠ some SLASH ∧ (r = [] ↔ k.location = []) := by
  have hhead : ∀ {n : Name} (t : List UInt8), Plain n → (n ++ t).head? ≠ some SLASH := by
    intro n t hn hslash
    cases n with
    | nil => exact hn.ne_nil rfl
    | cons a n =>
        have ha : a = SLASH := Option.some.inj hslash
        exact hn.noSlash (ha ▸ List.mem_cons_self)
  have htext : k.front ++ k.unfinished = k.names.flatMap (· ++ [SLASH]) ++ k.unfinished := by
    rw [Kept.front, if_neg (by omega)]
    rfl
  refine ⟨_, Kept.out_of_le (by omega), ?_, ?_⟩
  · rw [htext]
    cases hnames : k.names with
    | nil =>
        by_cases hnil : k.unfinished = []
        · rw [hnil]
          exact fun h => by cases h
        · have hplain := hhead [] (hk.unfinished hnil)
          rwa [List.append_nil] at hplain
    | cons n ns =>
        rw [List.flatMap_cons, List.append_assoc, List.append_assoc]
        exact hhead _ (hk.names n (by rw [hnames]; exact List.mem_cons_self))
  · rw [htext, Kept.location]
    cases k.names with
    | nil => by_cases hnil : k.unfinished = [] <;> simp [hnil]
    | cons n ns => simp

/-! ## Levels -/

/-- The number of levels that are kept. -/
def Kept.depth (k : Kept) : Nat := k.location.length

theorem Kept.depth_eq (k : Kept) :
    k.depth = k.names.length + if k.unfinished = [] then 0 else 1 := by
  rw [Kept.depth, Kept.location, List.length_append]
  split <;> rfl

/-- What a component does to the number of levels that are kept, and to those of the path: nothing,
a level less, a level less where none is kept, or a level more, of which the reading may miss. -/
theorem read_depth (k : Kept) (l : List Name) (c : Name) :
    ((k.read c).climbed = k.climbed ∧ (k.read c).depth = k.depth
        ∧ (resolve l c).length = l.length)
      ∨ ((k.read c).climbed = k.climbed ∧ (k.read c).depth + 1 = k.depth
        ∧ (resolve l c).length = l.length - 1)
      ∨ ((k.read c).climbed = k.climbed + 1 ∧ k.depth = 0 ∧ (k.read c).depth = 0
        ∧ (resolve l c).length = l.length - 1)
      ∨ ((k.read c).climbed = k.climbed ∧ (k.read c).depth ≤ k.depth + 1
        ∧ (resolve l c).length = l.length + 1) := by
  simp only [Kept.depth_eq]
  unfold Kept.read resolve
  by_cases hspecial : c = [] ∨ c = dot
  · rw [if_pos hspecial, if_pos hspecial]
    exact Or.inl ⟨rfl, rfl, rfl⟩
  · rw [if_neg hspecial, if_neg hspecial]
    by_cases hdotDot : c = dotDot
    · rw [if_pos hdotDot, if_pos hdotDot, List.length_dropLast]
      by_cases hunfinished : k.unfinished = []
      · rw [if_neg (not_not.mpr hunfinished), if_pos hunfinished]
        by_cases hnames : k.names = []
        · rw [if_neg (not_not.mpr hnames), hnames]
          exact Or.inr (Or.inr (Or.inl ⟨rfl, rfl, by simp [hunfinished], rfl⟩))
        · have hpos := List.length_pos_of_ne_nil hnames
          rw [if_pos hnames]
          refine Or.inr (Or.inl ⟨rfl, ?_, rfl⟩)
          simp only [hunfinished, List.length_dropLast, if_pos]
          omega
      · rw [if_pos hunfinished, if_neg hunfinished]
        exact Or.inr (Or.inl ⟨rfl, rfl, rfl⟩)
    · rw [if_neg hdotDot, if_neg hdotDot, List.length_append, List.length_singleton]
      refine Or.inr (Or.inr (Or.inr ?_))
      split
      · refine ⟨rfl, ?_, rfl⟩
        rw [List.length_append, List.length_singleton, if_pos rfl]
        omega
      · refine ⟨rfl, ?_, rfl⟩
        show k.names.length + (if k.unfinished ++ stem c = [] then 0 else 1) ≤ _
        split <;> omega
      · refine ⟨rfl, ?_, rfl⟩
        show k.names.length + 0 ≤ _
        omega

theorem climbed_le_foldl (k : Kept) (cs : List Name) :
    k.climbed ≤ (cs.foldl Kept.read k).climbed := by
  induction cs generalizing k with
  | nil => exact Nat.le_refl _
  | cons c cs ih => exact Nat.le_trans (Kept.read_climbed_le k c) (ih (k.read c))

/-- Never more levels are kept than the path has. -/
theorem foldl_depth_le (h : k.depth ≤ l.length) (cs : List Name) :
    (cs.foldl Kept.read k).depth ≤ (cs.foldl resolve l).length := by
  induction cs generalizing k l with
  | nil => exact h
  | cons c cs ih =>
      apply ih
      rcases read_depth k l c with ⟨-, hd, hl⟩ | ⟨-, hd, hl⟩ | ⟨-, -, hd, hl⟩ | ⟨-, hd, hl⟩
        <;> omega

/-- Once fewer levels are kept than the path has, this stays so while no `..` finds nothing. -/
theorem foldl_shallower (h : k.depth < l.length) {cs : List Name}
    (hclimbed : (cs.foldl Kept.read k).climbed = k.climbed) :
    (cs.foldl Kept.read k).depth < (cs.foldl resolve l).length := by
  induction cs generalizing k l with
  | nil => exact h
  | cons c cs ih =>
      rw [List.foldl_cons] at hclimbed ⊢
      have hle := Kept.read_climbed_le k c
      have hle' := climbed_le_foldl (k.read c) cs
      refine ih ?_ (by omega)
      rcases read_depth k l c with ⟨-, hd, hl⟩ | ⟨-, hd, hl⟩ | ⟨hc, -, hd, hl⟩ | ⟨-, hd, hl⟩
        <;> omega

/-! ## Dots that do no harm -/

/-- What is kept is the location `l`, up to the dot of the last name if that has been joined. -/
def Agrees (joined : Bool) (k : Kept) (l : List Name) : Prop :=
  if joined then k.unfinished ≠ [] ∧ k.names ++ [k.unfinished ++ dot] = l
  else k.unfinished = [] ∧ k.names = l

/-- Fewer levels are not the same location. -/
theorem location_ne (h : k.depth < l.length) {cs : List Name}
    (hclimbed : (cs.foldl Kept.read k).climbed = k.climbed) :
    (cs.foldl Kept.read k).location ≠ cs.foldl resolve l := by
  intro he
  have hlt := foldl_shallower h hclimbed
  rw [Kept.depth, he] at hlt
  exact Nat.lt_irrefl _ hlt

/-- `..` removes what agrees. -/
theorem agrees_dotDot {joined : Bool} (h : Agrees joined k l)
    (hclimbed : (k.read dotDot).climbed = k.climbed) :
    Agrees false (k.read dotDot) (resolve l dotDot) := by
  have hspecial : ¬ (dotDot = [] ∨ dotDot = dot) := by decide
  have hresolve : resolve l dotDot = l.dropLast := by
    rw [resolve, if_neg hspecial, if_pos rfl]
  rw [Kept.read, if_neg hspecial, if_pos rfl] at hclimbed ⊢
  rw [hresolve]
  cases joined with
  | true =>
      obtain ⟨hunfinished, rfl⟩ : k.unfinished ≠ [] ∧ k.names ++ [k.unfinished ++ dot] = l := h
      rw [if_pos hunfinished, List.dropLast_concat]
      exact ⟨rfl, rfl⟩
  | false =>
      obtain ⟨hunfinished, rfl⟩ : k.unfinished = [] ∧ k.names = l := h
      rw [if_neg (not_not.mpr hunfinished)] at hclimbed ⊢
      by_cases hnames : k.names = []
      · rw [if_neg (not_not.mpr hnames)] at hclimbed
        exact absurd hclimbed (Nat.succ_ne_self _)
      · rw [if_pos hnames]
        exact ⟨hunfinished, rfl⟩

/-- A name agrees with what is kept of it, or a level is lost and the dots do harm. The number of
dots at its end and those of the name before decide. -/
theorem agrees_name {joined : Bool} (h : Agrees joined k l) (hspecial : ¬ (c = [] ∨ c = dot))
    (hdotDot : c ≠ dotDot) (cs : List Name) :
    (∃ joined', Agrees joined' (k.read c) (resolve l c)
        ∧ (DotsHarmless joined (c :: cs) ↔ DotsHarmless joined' cs))
      ∨ ¬ DotsHarmless joined (c :: cs) ∧ (k.read c).depth < (resolve l c).length := by
  have hresolve : resolve l c = l ++ [c] := by rw [resolve, if_neg hspecial, if_neg hdotDot]
  have hlength : (l ++ [c]).length = l.length + 1 := List.length_append
  have hsplit := stem_append_dots c
  rw [hresolve, DotsHarmless, if_neg hspecial, if_neg hdotDot]
  cases joined with
  | false =>
      obtain ⟨hunfinished, rfl⟩ : k.unfinished = [] ∧ k.names = l := h
      cases hdots : trailingDots c with
      | zero =>
          have hread : k.read c
              = { k with names := k.names ++ [k.unfinished ++ c], unfinished := [] } := by
            rw [Kept.read, if_neg hspecial, if_neg hdotDot, hdots]
          left
          refine ⟨false, ?_, by simp⟩
          rw [hread]
          exact ⟨rfl, by rw [hunfinished]; rfl⟩
      | succ j =>
          cases j with
          | zero =>
              have hread : k.read c = { k with unfinished := k.unfinished ++ stem c } := by
                rw [Kept.read, if_neg hspecial, if_neg hdotDot, hdots]
              rw [hdots] at hsplit
              have hstem : stem c ≠ [] := by
                intro hnil
                rw [hnil] at hsplit
                exact hspecial (Or.inr hsplit.symm)
              left
              refine ⟨true, ?_, by simp⟩
              rw [hread]
              refine ⟨by rw [hunfinished]; exact hstem, ?_⟩
              show k.names ++ [k.unfinished ++ stem c ++ dot] = k.names ++ [c]
              rw [hunfinished, List.nil_append]
              exact congrArg (fun c => k.names ++ [c]) hsplit
          | succ j =>
              have hread : k.read c = { k with unfinished := [] } := by
                rw [Kept.read, if_neg hspecial, if_neg hdotDot, hdots]
              right
              refine ⟨by simp, ?_⟩
              rw [hread, Kept.depth_eq, if_pos rfl]
              show k.names.length + 0 < (k.names ++ [c]).length
              omega
  | true =>
      obtain ⟨hunfinished, rfl⟩ : k.unfinished ≠ [] ∧ k.names ++ [k.unfinished ++ dot] = l := h
      have hlevels : (k.names ++ [k.unfinished ++ dot]).length = k.names.length + 1 :=
        List.length_append
      right
      refine ⟨by split <;> simp, ?_⟩
      -- The name joins the one before, or removes it.
      have hdepth : (k.read c).depth ≤ k.names.length + 1 := by
        rw [Kept.depth_eq, Kept.read, if_neg hspecial, if_neg hdotDot]
        split
        · rw [if_pos rfl, List.length_append, List.length_singleton]
        · show k.names.length + (if k.unfinished ++ stem c = [] then 0 else 1) ≤ _
          split <;> omega
        · show k.names.length + 0 ≤ _
          omega
      omega

/-- The location is right in the end exactly if the dots do no harm, where no `..` finds nothing. -/
theorem agrees_foldl {joined : Bool} (h : Agrees joined k l) {cs : List Name}
    (hclimbed : (cs.foldl Kept.read k).climbed = k.climbed) :
    DotsHarmless joined cs ↔ (cs.foldl Kept.read k).location = cs.foldl resolve l := by
  induction cs generalizing joined k l with
  | nil =>
      show joined = false ↔ k.names ++ (if k.unfinished = [] then [] else [k.unfinished]) = l
      cases joined with
      | true =>
          obtain ⟨hunfinished, rfl⟩ : k.unfinished ≠ [] ∧ k.names ++ [k.unfinished ++ dot] = l := h
          rw [if_neg hunfinished]
          refine iff_of_false nofun fun he => ?_
          have hlast := List.append_cancel_left he
          simp [dot] at hlast
      | false =>
          obtain ⟨hunfinished, rfl⟩ : k.unfinished = [] ∧ k.names = l := h
          rw [if_pos hunfinished, List.append_nil]
          exact iff_of_true rfl rfl
  | cons c cs ih =>
      rw [List.foldl_cons] at hclimbed
      have hle := Kept.read_climbed_le k c
      have hle' := climbed_le_foldl (k.read c) cs
      have hrest : (cs.foldl Kept.read (k.read c)).climbed = (k.read c).climbed := by omega
      have hone : (k.read c).climbed = k.climbed := by omega
      rw [List.foldl_cons, List.foldl_cons]
      by_cases hspecial : c = [] ∨ c = dot
      · have hread : k.read c = k := by rw [Kept.read, if_pos hspecial]
        have hresolve : resolve l c = l := by rw [resolve, if_pos hspecial]
        rw [DotsHarmless, if_pos hspecial, hread, hresolve]
        rw [hread] at hrest
        exact ih h hrest
      · by_cases hdotDot : c = dotDot
        · subst hdotDot
          rw [DotsHarmless, if_neg hspecial, if_pos rfl]
          exact ih (agrees_dotDot h hone) hrest
        · rcases agrees_name h hspecial hdotDot cs with ⟨joined', hagrees, hiff⟩ | ⟨hnot, hlt⟩
          · exact hiff.trans (ih hagrees hrest)
          · exact iff_of_false hnot (location_ne hlt hrest)

end Locations

end DemoOS.Path

namespace DemoOS.Shell

open Support.CString DemoOS.Path

/-! ## `normalize_path` -/

/-- `normalize_path` writes inside the bytes of the string only, and leaves a path from the root
to the same location, which it leaves as it is when it is applied again. -/
def NormalizesRight (s : List UInt8) : Prop :=
  ∃ path r, normalizePath (s ++ [NUL]) = some path ∧ Holds path r ∧ r.head? = some SLASH
    ∧ location r = location s ∧ normalizePath path = some path

section Right

variable {s r : List UInt8}

/-- The text that `normalize_path` leaves. -/
def leftText (r : List UInt8) : List UInt8 := if r = [] then [SLASH] else r

theorem normalizePath_leaves (hs : IsAbsolute s) (hr : normalized s = some r) :
    ∃ path, normalizePath (s ++ [NUL]) = some path ∧ Holds path (leftText r) := by
  have hholds : Holds (s ++ [NUL]) s := ⟨⟨[], rfl⟩, hs.noZero⟩
  have hlen : 2 ≤ (s ++ [NUL]).length := by
    have hne : s ≠ [] := by
      rintro rfl
      exact nomatch hs.rooted
    have hpos := List.length_pos_of_ne_nil hne
    rw [List.length_append, List.length_singleton]
    omega
  obtain ⟨path, hrun, hpath, -⟩ := normalizePath_of_normalized hholds hr hlen
  exact ⟨path, hrun, hpath⟩

theorem normalizesRight_of (hs : IsAbsolute s) (hr : normalized s = some r)
    (hhead : (leftText r).head? = some SLASH) (hlocation : location (leftText r) = location s)
    (hfixed : normalized (leftText r) = some (leftText r)) : NormalizesRight s := by
  obtain ⟨path, hrun, hpath⟩ := normalizePath_leaves hs hr
  have hne : leftText r ≠ [] := by
    intro hnil
    rw [hnil] at hhead
    exact nomatch hhead
  exact ⟨path, leftText r, hrun, hpath, hhead, hlocation, normalizePath_fixed hpath hfixed hne⟩

theorem NormalizesRight.leftText (h : NormalizesRight s) (hs : IsAbsolute s)
    (hr : normalized s = some r) :
    (leftText r).head? = some SLASH ∧ location (leftText r) = location s := by
  obtain ⟨path, t, hrun, hpath, hhead, hlocation, -⟩ := h
  obtain ⟨path', hrun', hpath'⟩ := normalizePath_leaves hs hr
  obtain rfl : path' = path := Option.some.inj (hrun'.symm.trans hrun)
  rw [hpath'.unique hpath]
  exact ⟨hhead, hlocation⟩

/-- For every path from the root without empty components inside it, `normalize_path` is right
exactly if no name of it ends with a dot, except for single dots of names that `..` removes at
once, and no `..` meets the root, or if it leads to the root and one `..` meets the root. -/
theorem normalizePath_iff (hs : IsAbsolute s) :
    NormalizesRight s ↔ climbs s = 0 ∧ DotsHarmless false (components s)
      ∨ climbs s = 1 ∧ location s = [] := by
  obtain ⟨k, hclean, hout, hclimbed, hlocation⟩ := normalized_eq hs
  have hdepth : (kept s).depth ≤ (location s).length :=
    foldl_depth_le (k := Kept.root) (l := []) (by decide) (components s)
  rcases Nat.lt_trichotomy (climbs s) 1 with hzero | hone | hmore
  · have hzero : climbs s = 0 := by omega
    obtain ⟨r, hr, hhead, hlocationR, hfixed⟩ := rooted_names hclean (hclimbed.trans hzero)
    have hne : r ≠ [] := by
      rintro rfl
      cases hhead
    have htext : leftText r = r := if_neg hne
    have hroot : Agrees false Kept.root [] := ⟨rfl, rfl⟩
    have hagrees : DotsHarmless false (components s) ↔ (kept s).location = location s :=
      agrees_foldl hroot hzero
    have hright : NormalizesRight s ↔ location r = location s := by
      constructor
      · intro h
        have hleft := (h.leftText hs (hout.trans hr)).2
        rwa [htext] at hleft
      · intro h
        apply normalizesRight_of hs (hout.trans hr) <;> rw [htext] <;> assumption
    rw [hright, hlocationR, hlocation]
    have hsecond : ¬ (climbs s = 1 ∧ location s = []) := fun h => by omega
    rw [or_iff_left hsecond, and_iff_right hzero]
    exact hagrees.symm
  · obtain ⟨r, hr, hhead, hnil⟩ := unrooted_head hclean (hclimbed.trans hone)
    have hfirst : ¬ (climbs s = 0 ∧ DotsHarmless false (components s)) := fun h => by omega
    rw [or_iff_right hfirst, and_iff_right hone]
    constructor
    · intro h
      have hleft := h.leftText hs (hout.trans hr)
      by_cases hempty : r = []
      · rw [leftText, if_pos hempty] at hleft
        exact hleft.2.symm
      · rw [leftText, if_neg hempty] at hleft
        exact absurd hleft.1 hhead
    · intro hroot
      have hkept : k.location = [] := by
        rw [hlocation]
        rw [hroot] at hdepth
        exact List.length_eq_zero_iff.mp (Nat.le_zero.mp hdepth)
      have htext : leftText r = [SLASH] := if_pos (hnil.mpr hkept)
      have hslash : normalized [SLASH] = some [SLASH] := by
        rw [normalized, readPath_slash, readPath]
        rfl
      apply normalizesRight_of hs (hout.trans hr) <;> rw [htext]
      · rfl
      · rw [hroot]
        decide
      · exact hslash
  · have hnone : normalized s = none := by
      rw [hout]
      exact if_neg (by omega)
    have hholds : Holds (s ++ [NUL]) s := ⟨⟨[], rfl⟩, hs.noZero⟩
    constructor
    · rintro ⟨path, r, hrun, -⟩
      rw [normalizePath_of_outside hholds hnone] at hrun
      cases hrun
    · rintro (⟨h, -⟩ | ⟨h, -⟩) <;> omega

/-- The name that ends with a dot does no harm in `/a./../b`, since `..` removes it. -/
theorem normalizePath_iff_removed :
    IsAbsolute [SLASH, 97, DOT, SLASH, DOT, DOT, SLASH, 98]
      ∧ NormalizesRight [SLASH, 97, DOT, SLASH, DOT, DOT, SLASH, 98] := by
  have hs : IsAbsolute [SLASH, 97, DOT, SLASH, DOT, DOT, SLASH, 98] :=
    ⟨rfl, by decide, by decide⟩
  have hcomponents : components [SLASH, 97, DOT, SLASH, DOT, DOT, SLASH, 98]
      = [[], [97, DOT], dotDot, [98]] := by decide
  have hdots : DotsHarmless false [[], [97, DOT], dotDot, [98]] :=
    ⟨rfl, by decide, rfl, rfl⟩
  exact ⟨hs, (normalizePath_iff hs).mpr (.inl ⟨by decide, hcomponents ▸ hdots⟩)⟩

/-- The dot of `/a./b` is lost, and its slash: `/ab` is left. -/
theorem normalizePath_joins :
    IsAbsolute [SLASH, 97, DOT, SLASH, 98] ∧ ¬ NormalizesRight [SLASH, 97, DOT, SLASH, 98]
      ∧ normalizePath [SLASH, 97, DOT, SLASH, 98, NUL]
        = some [SLASH, 97, 98, NUL, 98, NUL] := by
  have hrun : normalizePath [SLASH, 97, DOT, SLASH, 98, NUL]
      = some [SLASH, 97, 98, NUL, 98, NUL] := by decide
  refine ⟨⟨rfl, by decide, by decide⟩, ?_, hrun⟩
  rintro ⟨path, r, hpath, hholds, -, hlocation, -⟩
  obtain rfl : _ = path := Option.some.inj (hrun.symm.trans hpath)
  have hleft : Holds [SLASH, 97, 98, NUL, 98, NUL] [SLASH, 97, 98] := ⟨⟨[98, NUL], rfl⟩, by decide⟩
  rw [← hleft.unique hholds] at hlocation
  revert hlocation
  decide

end Right

end DemoOS.Shell
