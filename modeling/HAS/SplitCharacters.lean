import HAS.Unicode

/-! Bytes, and the same bytes without the line feeds: where no character is put together
of bytes that a line feed stood between. -/
namespace HAS.Unicode
open HAS.Bytes

end HAS.Unicode
