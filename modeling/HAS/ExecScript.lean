import HAS.JavaScript
import HAS.LineFeeds
import HAS.SplitCharacters

/-! JavaScript::exec_script puts the lines of a file behind each other and has the result
run as a script. When is that still the program in the file? -/
namespace HAS.ExecScript
open HAS.Bytes HAS.Unicode HAS.Lexical HAS.JavaScript

end HAS.ExecScript
