import MiscUniStuff.Brainfuck
import MiscUniStuff.BracketWords

/-! Where `findend` splits the text, and why the parser comes to an end: it calls
itself on the two halves, and neither is longer than the text that was split. -/
namespace MiscUniStuff
namespace Brainfuck

open BracketWords

/-! ### The split -/

/-- What is wanted of a split of `x` into `g` and `f` at depth `n`: at the shortest
beginning that closes `n` brackets more than it opens, or nowhere. -/
def SplitSpec (n : ℤ) (x g f : List Char) : Prop :=
  (Reaches '[' ']' n x → SplitsAt '[' ']' n x g f) ∧
    (¬ Reaches '[' ']' n x → g = x ∧ f = [])

theorem splitSpec_nil {n : ℤ} (hn : 1 ≤ n) : SplitSpec n [] [] [] := by
  have hnot : ¬ Reaches '[' ']' n [] := not_reaches_nil (by omega)
  exact ⟨fun h => absurd h hnot,fun _ => ⟨rfl,rfl⟩⟩

theorem splitSpec_close (xs : List Char) : SplitSpec 1 (']'::xs) [] xs := by
  have hsplit : SplitsAt '[' ']' 1 (']'::xs) [] xs := splitsAt_close (by decide) xs
  exact ⟨fun _ => hsplit,fun h => absurd hsplit.reaches h⟩

/-- A letter before the split moves the depth by its excess. -/
theorem splitSpec_cons {n m : ℤ} (hn : 1 ≤ n) {x : Char} {xs g f : List Char}
    (hm : m = n-excess '[' ']' [x]) (h : SplitSpec m xs g f) :
    SplitSpec n (x::xs) (x::g) f := by
  subst m
  have hreach := reaches_cons (o:= '[') (c:= ']') (n:=n) (by omega) x xs
  constructor
  · intro hx
    exact splitsAt_cons (by omega) (h.1 (hreach.mp hx))
  · intro hx
    have hrest := h.2 (fun hxs => hx (hreach.mpr hxs))
    exact ⟨by rw [hrest.1],hrest.2⟩

theorem findend_spec (x : List Char) (n : ℤ) (hn : 1 ≤ n) :
    SplitSpec n x (findend x n).1 (findend x n).2 := by
  induction x generalizing n with
  | nil => exact splitSpec_nil hn
  | cons x xs ih =>
    unfold findend
    split_ifs with hopen hlast hclose
    · subst x
      exact splitSpec_cons hn (by rw [excess_open (by decide)]; omega) (ih (n+1) (by omega))
    · obtain ⟨rfl,rfl⟩ := hlast
      exact splitSpec_close xs
    · subst x
      have hdeep : n ≠ 1 := fun h => hlast ⟨rfl,h⟩
      exact splitSpec_cons hn (by rw [excess_close (by decide)]) (ih (n-1) (by omega))
    · exact splitSpec_cons hn (by rw [excess_skip hopen hclose]; omega) (ih n hn)

/-! ### The depth as a machine word -/

/-- `findend` with the depth held in a 64-bit `Int`, as it runs. -/
def findendWord : List Char → Int64 → List Char × List Char
  | [], _ => ([],[])
  | x::xs, y =>
    if x = '[' then (x::(findendWord xs (y+1)).1,(findendWord xs (y+1)).2)
    else if x = ']' ∧ y = 1 then ([],xs)
    else if x = ']' then (x::(findendWord xs (y-1)).1,(findendWord xs (y-1)).2)
    else (x::(findendWord xs y).1,(findendWord xs y).2)

theorem ofInt_eq_one {m : ℤ} (hlow : 1-2^64 < m) (hhigh : m < 1+2^64) :
    Int64.ofInt m = 1 ↔ m = 1 := by
  constructor
  · intro h
    have hval : m.bmod (2^64) = 1 := by
      have hword := Int64.toInt_ofInt (n:=m)
      rw [h] at hword
      exact hword.symm
    have hdvd : (2^64 : ℤ) ∣ m-1 := by
      rw [Int.bmod_eq_emod] at hval
      split at hval <;> omega
    omega
  · rintro rfl
    rfl

/-- The depth moves by one a letter, so on a text that fits the memory it never wraps
around to 1. -/
theorem findendWord_eq (x : List Char) (m : ℤ) (hlow : 1-2^64 < m-x.length)
    (hhigh : m+x.length < 1+2^64) : findendWord x (Int64.ofInt m) = findend x m := by
  induction x generalizing m with
  | nil => rfl
  | cons x xs ih =>
    rw [List.length_cons,Nat.cast_succ] at hlow hhigh
    have hup := ih (m+1) (by omega) (by omega)
    have hdown := ih (m-1) (by omega) (by omega)
    have hsame := ih m (by omega) (by omega)
    rw [Int64.ofInt_add] at hup
    rw [Int64.ofInt_sub] at hdown
    simp only [findendWord,findend,ofInt_eq_one (m:=m) (by omega) (by omega)]
    split_ifs
    · exact Prod.ext (congrArg (x::·.1) hup) (congrArg (·.2) hup)
    · rfl
    · exact Prod.ext (congrArg (x::·.1) hdown) (congrArg (·.2) hdown)
    · exact Prod.ext (congrArg (x::·.1) hsame) (congrArg (·.2) hsame)

/-! ### Termination -/

mutual
/-- The parser with a bound on the depth of its calls; `none` when it is used up. -/
def compileIn : ℕ → List Char → Option BF
  | 0, _ => none
  | _+1, [] => some .nil
  | n+1, x::y =>
    if x = '+' then (compileIn n y).map (.add 1)
    else if x = '-' then (compileIn n y).map (.sub 1)
    else if x = '>' then (compileIn n y).map (.incP 1)
    else if x = '<' then (compileIn n y).map (.decP 1)
    else if x = '[' then doStartIn n y
    else if x = '.' then (compileIn n y).map .put
    else if x = ',' then (compileIn n y).map .get
    else compileIn n y
def doStartIn : ℕ → List Char → Option BF
  | 0, _ => none
  | n+1, x => do
    let g ← compileIn n (findend x 1).1
    let f ← compileIn n (findend x 1).2
    pure (.start g f)
end

/-- Twice the length of the text, and one for `do_start`, bounds the depth of the calls. -/
theorem callsIn_eq (n : ℕ) :
    (∀ x : List Char, 2*x.length < n → compileIn n x = some (compile x)) ∧
      ∀ x : List Char, 2*x.length+1 < n → doStartIn n x = some (doStart x) := by
  induction n with
  | zero => exact ⟨fun x h => absurd h (by omega),fun x h => absurd h (by omega)⟩
  | succ n ih =>
    constructor
    · intro x hx
      cases x with
      | nil => simp [compileIn]
      | cons x y =>
        rw [List.length_cons] at hx
        have hrest := ih.1 y (by omega)
        have hloop := ih.2 y (by omega)
        simp only [compileIn,compile,hrest,hloop]
        split_ifs <;> rfl
    · intro x hx
      have hbody := findend_body_length x 1
      have hrest := findend_rest_length x 1
      have hg := ih.1 (findend x 1).1 (by omega)
      have hf := ih.1 (findend x 1).2 (by omega)
      simp [doStartIn,doStart,hg,hf]

/-- `findend` splits at the shortest beginning with excess `n`, neither half is longer than
the text, and the parser returns on every text. -/
theorem findend_splits_and_compile_returns (n : ℤ) (hn : 1 ≤ n) (x : List Char) :
    ((∃ p, p <+: x ∧ (p.count ']' : ℤ)-p.count '[' = n) →
      x = (findend x n).1 ++ ']'::(findend x n).2 ∧
      (((findend x n).1++[']']).count ']' : ℤ)-((findend x n).1++[']']).count '[' = n ∧
      ∀ p, p <+: x → (p.count ']' : ℤ)-p.count '[' = n →
        ((findend x n).1++[']']).length ≤ p.length) ∧
    ((¬ ∃ p, p <+: x ∧ (p.count ']' : ℤ)-p.count '[' = n) → findend x n = (x,[])) ∧
    (findend x n).1.length ≤ x.length ∧ (findend x n).2.length ≤ x.length ∧
    (∃ d, ∀ k ≥ d, compileIn k x = some (compile x)) ∧
    ∃ d, ∀ k ≥ d, doStartIn k x = some (doStart x) := by
  have hspec := findend_spec x n hn
  refine ⟨?_,?_,findend_body_length x n,findend_rest_length x n,⟨2*x.length+1,?_⟩,
    ⟨2*x.length+2,?_⟩⟩
  · intro hreach
    have hsplit := hspec.1 hreach
    exact ⟨hsplit.split,hsplit.excess_eq,hsplit.shortest⟩
  · intro hreach
    have hwhole := hspec.2 hreach
    exact Prod.ext hwhole.1 hwhole.2
  · intro k hk
    exact (callsIn_eq k).1 x (by omega)
  · intro k hk
    exact (callsIn_eq k).2 x (by omega)

theorem findend_splits_at_two :
    findend ['+',']',']','.'] 2 = (['+',']'],['.']) ∧
      ['+',']',']','.'] = (findend ['+',']',']','.'] 2).1 ++ ']'::(findend ['+',']',']','.'] 2).2 := by
  refine ⟨by decide,?_⟩
  have hreach : ∃ p, p <+: ['+',']',']','.'] ∧ (p.count ']' : ℤ)-p.count '[' = 2 :=
    ⟨['+',']',']'],by simp,by decide⟩
  exact ((findend_splits_and_compile_returns 2 (by decide) ['+',']',']','.']).1 hreach).1

end Brainfuck
end MiscUniStuff
