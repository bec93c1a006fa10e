import CortexFlow.Diagrams.Signature

namespace CortexFlow

namespace Diagrams

open Lib

variable (isalnum : Char → Bool)

-- No expression for a scope matches across the comment `d`, in whose place `b` is,
-- between `u` and `v`, but one that takes its delimiters as it takes blanks: that for a
-- class does, behind the `:`.
def settled (d b u v : Text) : Bool :=
  [_NAMESPACE_RE isalnum, _ANON_NS_RE, _CLASS_RE isalnum].all fun r =>
    ((r.exec none (u ++ (b ++ v))).all fun m => m.len ≤ u.length) ||
      r.matchAt (u ++ (d ++ v)) = r.matchAt (u ++ (b ++ v))

-- Whether the walk of `_scan` comes to stand before or behind a comment, or goes over
-- it, without reading its delimiters: the comment `d` stands between `u` and `v`, and the
-- blanks `b` in its place.
def hidden (d b : Text) : Nat → Text → Text → Bool
  | 0, u, _ => u = []
  | fuel + 1, u, v =>
      let gap := u.length + b.length
      u = [] || (settled isalnum d b u v && u ≠ ['/'] &&
        match step isalnum (u ++ (b ++ v)) with
        | .done => true
        | .next n =>
            if n ≤ u.length then hidden d b fuel (u.drop n) v
            else gap ≤ n && u.take 2 ≠ ['/', '*']
        | .scope _ start len _ =>
            if start + len < u.length then hidden d b fuel (u.drop (start + len + 1)) v
            else u.length < start || hidden d b fuel (u.drop start) (v.take (start + len - gap))
        | .body _ start len _ =>
            if start + len < u.length then hidden d b fuel (u.drop (start + len + 1)) v
            else start ≤ u.length ||
              apart_from_name isalnum u d b (v.take (start - 1 - gap)))

section Step

variable {d b : Text}

def bodyAt (t : Text) (marker : Nat) : Step :=
  braced t (marker + 1) fun len =>
    let close := marker + 1 + len
    .body (_extract_function_name isalnum (t.take marker)) (marker + 1) len
      (close + 1 + skip_semicolon (t.drop (close + 1)))

theorem statement_eq {t : Text} {marker : Nat} (h : find_next_top 0 t = some marker) :
    statement isalnum t =
      if t[marker]? = some ';' then .next (marker + 1)
      else if t[marker]? = some '{' then bodyAt isalnum t marker
      else .done := by
  simp only [statement, h]
  split
  · rename_i hsemicolon
    rw [if_pos hsemicolon]
  · rename_i hopen
    rw [if_neg (by rw [hopen]; decide), if_pos hopen]
    rfl
  · rename_i hsemicolon hopen
    rw [if_neg hsemicolon, if_neg hopen]

end Step

section Same

end Same

section Around

variable {d b : Text}

end Around

end Diagrams

end CortexFlow
